import DeltaSwamp.Dynamic.Predicate
import Mathlib.Data.Nat.Prime.Basic

/-!
# What a dynamic overwrite replaces

The predicate of a dynamic overwrite against the partitions its data names, compared as
Spark compares them: exactly those, unless two of them are equal in Python and not to the
engine.
-/

namespace DeltaSwamp.Dynamic

open List

open Predicate (Prim Value Fl dayNanos)
open Rebase (gregorian)

/-- Spark's comparison of partition values: NULL equals NULL, NaN itself, and `-0.0` is `0.0`. -/
def Same (v w : Option Value) : Prop := v.map Value.plusZero = w.map Value.plusZero

section
variable (types : Text → Prim) (partitions : List Text)

/-- A row of the table. -/
def Typed (row : Text → Option Value) : Prop :=
  ∀ c ∈ partitions, ∀ v ∈ row c, Value.hasType (types c) v = true

/-- A row of the table in the partition of a row of the data. -/
def SamePartition (row : Text → Option Value) (t : Text → PyValue) : Prop :=
  ∀ c ∈ partitions, Same (row c) ((t c).value (types c))

/-- A row of the table with the very partition values of a row of the data. -/
def Exactly (row : Text → Option Value) (t : Text → PyValue) : Prop :=
  ∀ c ∈ partitions, row c = (t c).value (types c)

end

def PyValue.isNan : PyValue → Bool
  | .float .nan => true
  | _ => false

/-- A float zero, of either sign. -/
def IsZero (v : Option Value) : Prop := v = some (.float .negZero) ∨ v = some (.float (.fin 0))

section
variable (py : Python)

/-- What `==` compares. -/
def pyKey : PyValue → Option (Kind × Bool × Value)
  | .none => none
  | .bool b => some (.bool, false, .bool b)
  | .int n => some (.int, false, .num n)
  | .float x => some (.float, false, .float x.plusZero)
  | .decimal d => some (.decimal, false, .num d.value)
  | .str s => some (.str, false, .text s)
  | .date d => some (.date, false, .time (gregorian.dayNumber d.date))
  | .datetime s => some (.datetime, s.offset.isSome,
      .time (if s.offset.isSome && !py.sharedZone then s.micros else s.wall.micros))
  | .bytes bs => some (.bytes, false, .bytes bs)

theorem plusZero_eq_iff {x y : Fl} : x.plusZero = y.plusZero ↔ x.key = y.key := by
  cases x <;> cases y <;> simp [Fl.plusZero, Fl.key]

theorem ieeeEq_iff {x y : Fl} :
    x.ieeeEq y = true ↔ x ≠ .nan ∧ y ≠ .nan ∧ x.plusZero = y.plusZero := by
  rw [plusZero_eq_iff]
  simp [Fl.ieeeEq, Fl.isNan, and_assoc]

theorem isNan_float {x : Fl} : (PyValue.float x).isNan = false ↔ x ≠ .nan := by
  cases x <;> simp [PyValue.isNan]

theorem date_eq_iff {d e : PyDate} :
    d.date = e.date ↔ gregorian.dayNumber d.date = gregorian.dayNumber e.date :=
  ⟨fun h => by rw [h], d.valid.unique e.valid⟩

variable {py} {v w u : PyValue}

theorem pyEq_iff :
    pyEq py v w = true ↔ v.isNan = false ∧ w.isNan = false ∧ pyKey py v = pyKey py w := by
  cases v with
  | float x =>
    cases w with
    | float y => simp [pyEq, pyKey, ieeeEq_iff, isNan_float]
    | _ => simp [pyEq, pyKey]
  | date d =>
    cases w with
    | date e => simp [pyEq, pyKey, PyValue.isNan, date_eq_iff]
    | _ => simp [pyEq, pyKey]
  | datetime s =>
    cases w with
    | datetime t =>
      simp only [pyEq, pyKey, PyValue.isNan]
      cases s.offset with
      | none => cases t.offset <;> simp
      | some _ => cases t.offset <;> cases py.sharedZone <;> simp
    | _ => simp [pyEq, pyKey]
  | _ => cases w <;> simp [pyEq, pyKey, PyValue.isNan]

theorem tupleEq_map {columns : List Text} {s t : Text → PyValue} :
    tupleEq py (columns.map s) (columns.map t) = true ↔
      ∀ c ∈ columns, pyEq py (s c) (t c) = true := by
  induction columns with
  | nil => simp [tupleEq]
  | cons c columns ih =>
    rw [forall_mem_cons, ← ih]
    simp [tupleEq, List.isEqv]

end

theorem isNan_iff {v : PyValue} {type : Prim} :
    v.isNan = true ↔ v.value type = some (.float .nan) := by
  cases v with
  | float x => cases x <;> simp [PyValue.isNan, PyValue.value]
  | int n =>
    simp only [PyValue.isNan, PyValue.value, Bool.false_eq_true, Option.some.injEq, false_iff]
    split_ifs <;> simp
  | _ => simp [PyValue.isNan, PyValue.value]

theorem plusZero_eq_nan {v : Value} : v.plusZero = .float .nan ↔ v = .float .nan := by
  cases v <;> simp [Value.plusZero]

theorem same_nan {v w : Option Value} (h : Same v w) :
    v = some (.float .nan) ↔ w = some (.float .nan) := by
  have hmap : ∀ v : Option Value,
      v.map Value.plusZero = some (.float .nan) ↔ v = some (.float .nan) := by
    intro v
    cases v <;> simp [plusZero_eq_nan]
  rw [← hmap v, ← hmap w, h]

theorem pyKey_of_same {py : Python} {type : Prim} {v w : PyValue}
    (hkind : ∀ k ∈ v.kind, ∀ l ∈ w.kind, k = l)
    (hzone : ∀ s t, v = .datetime s → w = .datetime t → s.micros = t.micros → s.offset = t.offset)
    (hsame : Same (v.value type) (w.value type)) : pyKey py v = pyKey py w := by
  have hsome : (v.value type).isSome = (w.value type).isSome := by
    have h := congrArg Option.isSome hsame
    simpa using h
  cases v with
  | none => cases w <;> simp_all [PyValue.value, pyKey]
  | int n =>
    cases w with
    | int m =>
      simp only [Same, PyValue.value, Option.map_some, Option.some.injEq] at hsame
      split_ifs at hsame <;> simp_all [Value.plusZero, Fl.plusZero, pyKey]
    | _ => simp_all [PyValue.value, PyValue.kind]
  | date d =>
    cases w with
    | date e =>
      simp only [Same, PyValue.value, Option.map_some, Option.some.injEq, Value.plusZero,
        Value.time.injEq, dayNanos] at hsame
      have hday : gregorian.dayNumber d.date = gregorian.dayNumber e.date := by omega
      simp [pyKey, hday]
    | _ => simp_all [PyValue.value, PyValue.kind]
  | datetime s =>
    cases w with
    | datetime t =>
      simp only [Same, PyValue.value, Option.map_some, Option.some.injEq, Value.plusZero,
        Value.time.injEq] at hsame
      have hmicros : s.micros = t.micros := by omega
      have hoffset := hzone s t rfl rfl hmicros
      have hwall : s.wall.micros = t.wall.micros := by
        simp only [Stamp.micros, hoffset] at hmicros
        omega
      simp [pyKey, hmicros, hoffset, hwall]
    | _ => simp_all [PyValue.value, PyValue.kind]
  | _ => cases w <;> simp_all [PyValue.value, PyValue.kind, pyKey, Same, Value.plusZero]

section
variable {py : Python} {types : Text → Prim} {partitions : List Text} {data : Data} {c : Text}
  {s t : Text → PyValue}

theorem pyEq_of_same (hs : s ∈ data.rows) (ht : t ∈ data.rows) {type : Prim}
    (hsame : Same ((s c).value type) ((t c).value type)) (hnan : (s c).isNan = false) :
    pyEq py (s c) (t c) = true := by
  obtain ⟨kind, hkind⟩ := data.uniform c
  obtain ⟨zone, hzone⟩ := data.zoned c
  have hother : (t c).isNan = false := by
    have hiff := same_nan hsame
    rw [← isNan_iff, ← isNan_iff, hnan] at hiff
    simpa using hiff
  refine pyEq_iff.mpr ⟨hnan, hother, pyKey_of_same ?_ ?_ hsame⟩
  · intro k hk l hl
    rw [hkind s hs k hk, hkind t ht l hl]
  · intro a b ha hb hmicros
    rw [hzone s hs a ha, hzone t ht b hb, hmicros]

end

section
variable (py : Python) (types : Text → Prim) (partitions : List Text) (data : Data)

/-- The rows of the data whose partitions the predicate names. -/
def Named (k : Text → PyValue) : Prop :=
  k ∈ data.rows ∧ partitions.map k ∈ tuples py partitions data

variable {py types partitions data}

theorem tuples_rows {values : List PyValue} (h : values ∈ tuples py partitions data) :
    ∃ t ∈ data.rows, partitions.map t = values := by
  rw [tuples, mem_mergeSort] at h
  obtain h | h := collect_subset h
  · cases h
  · exact mem_map.mp h

theorem named_or_equal {t : Text → PyValue} (ht : t ∈ data.rows) :
    Named py partitions data t ∨
      ∃ k, Named py partitions data k ∧ ∀ c ∈ partitions, pyEq py (k c) (t c) = true := by
  have hmem : partitions.map t ∈ data.rows.map fun row => partitions.map row :=
    mem_map_of_mem ht
  obtain h | ⟨values, hvalues, hsame⟩ := @collect_covers _ (tupleEq py) [] _ _ hmem
  · exact Or.inl ⟨ht, by rwa [tuples, mem_mergeSort]⟩
  · obtain ⟨k, hk, rfl⟩ := tuples_rows (by rwa [tuples, mem_mergeSort])
    exact Or.inr ⟨k, ⟨hk, by rwa [tuples, mem_mergeSort]⟩, tupleEq_map.mp hsame⟩

theorem named_unique {k l : Text → PyValue} (hk : Named py partitions data k)
    (hl : Named py partitions data l) (hsame : ∀ c ∈ partitions, pyEq py (k c) (l c) = true) :
    partitions.map k = partitions.map l := by
  have hpairwise := @collect_pairwise _ (tupleEq py) []
    (data.rows.map fun row => partitions.map row) .nil
  have hkmem := hk.2
  have hlmem := hl.2
  rw [tuples, mem_mergeSort] at hkmem hlmem
  by_contra hne
  have hsymm : tupleEq py (partitions.map l) (partitions.map k) = true := by
    rw [tupleEq_map]
    intro c hc
    obtain ⟨hnan, hnan', hkey⟩ := pyEq_iff.mp (hsame c hc)
    exact pyEq_iff.mpr ⟨hnan', hnan, hkey.symm⟩
  have hboth : (collect (tupleEq py) [] (data.rows.map fun row => partitions.map row)).Pairwise
      fun a b => ¬ (tupleEq py a b = true ∧ tupleEq py b a = true) := by
    apply hpairwise.imp
    intro a b hdiffer hequal
    rw [hequal.1] at hdiffer
    cases hdiffer
  have hsym : Std.Symm fun a b => ¬ (tupleEq py a b = true ∧ tupleEq py b a = true) :=
    ⟨fun _ _ h hequal => h ⟨hequal.2, hequal.1⟩⟩
  exact hboth.forall hkmem hlmem hne ⟨tupleEq_map.mpr hsame, hsymm⟩

/-- A row with a NaN in its partition is always named: it is equal to no other, nor to itself. -/
theorem named_of_nan {t : Text → PyValue} (ht : t ∈ data.rows) {c : Text} (hc : c ∈ partitions)
    (hnan : (t c).isNan = true) : Named py partitions data t := by
  obtain h | ⟨k, -, hsame⟩ := @named_or_equal py partitions data t ht
  · exact h
  · have hother := (pyEq_iff.mp (hsame c hc)).2.1
    rw [hnan] at hother
    cases hother

theorem tuples_named : ∃ ts : List (Text → PyValue), (∀ t ∈ ts, Named py partitions data t) ∧
    tuples py partitions data = ts.map fun t => partitions.map t := by
  have hall : ∀ all : List (List PyValue), (∀ values ∈ all, values ∈ tuples py partitions data) →
      ∃ ts : List (Text → PyValue), (∀ t ∈ ts, Named py partitions data t) ∧
        all = ts.map fun t => partitions.map t := by
    intro all
    induction all with
    | nil => exact fun _ => ⟨[], by simp, rfl⟩
    | cons values all ih =>
      intro hmem
      obtain ⟨t, ht, rfl⟩ := tuples_rows (hmem values mem_cons_self)
      obtain ⟨ts, hts, rfl⟩ := ih fun v hv => hmem v (mem_cons_of_mem _ hv)
      refine ⟨t :: ts, ?_, rfl⟩
      rw [forall_mem_cons]
      exact ⟨⟨ht, hmem _ mem_cons_self⟩, hts⟩
  exact hall _ fun _ h => h

theorem predicate_named (engine : Engine py) (chars : Ansi.Alphabet) {limit : ℕ} {text : Text}
    (hsuits : ∀ t ∈ data.rows, ∀ c ∈ partitions, (t c).Suits (types c))
    (h : dynamicPartitionPredicate py partitions limit data = .ok text) :
    ∃ condition, Ansi.parse chars text = some condition ∧ ∀ row : Text → Option Value,
      condition.eval (engine.compare types) row = some true ↔
        ∃ k, Named py partitions data k ∧ Exactly types partitions row k := by
  unfold dynamicPartitionPredicate at h
  split_ifs at h with hpartitions hmissing hempty hmany
  obtain ⟨ts, hnamed, htuples⟩ := @tuples_named py partitions data
  have hsome : ts ≠ [] := by
    rintro rfl
    exact hempty htuples
  obtain ⟨condition, hparse, heval⟩ := @parse_clauses py engine chars types _ ts hpartitions hsome
    fun t ht => hsuits t (hnamed t ht).1
  rw [htuples, map_map] at h
  obtain rfl := Except.ok.inj h
  refine ⟨condition, hparse, fun row => (heval row).trans ⟨?_, ?_⟩⟩
  · rintro ⟨t, ht, hexact⟩
    exact ⟨t, hnamed t ht, hexact⟩
  · rintro ⟨k, hk, hexact⟩
    have hmem := hk.2
    rw [htuples] at hmem
    obtain ⟨t, ht, htuple⟩ := mem_map.mp hmem
    refine ⟨t, ht, fun c hc => ?_⟩
    rw [hexact c hc, map_inj_left.mp htuple c hc]

end

section
variable (py : Python) (types : Text → Prim) (partitions : List Text) (data : Data)

/-- A row with a NaN among its partition values, where each way to sign its zeros is in the data. -/
def AllSigned (t : Text → PyValue) : Prop :=
  (∃ c ∈ partitions, (t c).isNan = true) ∧ ∀ row, Typed types partitions row →
    SamePartition types partitions row t → ∃ k ∈ data.rows, Exactly types partitions row k

/-- A row with neither a NaN nor a float zero among its partition values, and with the very values
of each row that Python takes for equal (which another instant of a repeated hour has not). -/
def Alone (t : Text → PyValue) : Prop :=
  (∀ c ∈ partitions, (t c).isNan = false ∧ ¬ IsZero ((t c).value (types c))) ∧
    ∀ k ∈ data.rows, (∀ c ∈ partitions, pyEq py (k c) (t c) = true) →
      ∀ c ∈ partitions, (k c).value (types c) = (t c).value (types c)

variable {py types partitions data}

theorem same_of_not_zero {v w : Option Value} (hw : ¬ IsZero w) (h : Same v w) : v = w := by
  cases v with
  | none => cases w <;> simp_all [Same]
  | some v =>
    cases w with
    | none => simp [Same] at h
    | some w =>
      simp only [Same, Option.map_some, Option.some.injEq] at h
      simp only [IsZero, Option.some.injEq, not_or] at hw
      cases v with
      | float x =>
        cases w with
        | float y => cases x <;> cases y <;> simp_all [Value.plusZero, Fl.plusZero]
        | _ => simp [Value.plusZero] at h
      | _ => cases w <;> simp_all [Value.plusZero]

/-- The other zero. -/
def flip : Option Value → Option Value
  | some (.float .negZero) => some (.float (.fin 0))
  | some (.float (.fin _)) => some (.float .negZero)
  | v => v

theorem flip_zero {v : Option Value} (hv : IsZero v) : Same (flip v) v ∧ flip v ≠ v := by
  obtain rfl | rfl := hv
  · exact ⟨rfl, by simp [flip]⟩
  · exact ⟨rfl, by simp [flip]⟩

theorem suits_hasType {type : Prim} {v : PyValue} (hsuits : v.Suits type) :
    ∀ u ∈ v.value type, Value.hasType type u = true := by
  intro u hu
  cases v with
  | none => cases hu
  | int n =>
    obtain rfl := Option.some.inj hu
    cases type with
    | int signed bits =>
      have hrange : Value.inRange signed bits n = true := hsuits
      simpa [Value.hasType, Prim.isFloating] using hrange
    | float bits => rfl
    | decimal bits precision scale => exact hsuits
    | _ => exact hsuits.elim
  | date d =>
    obtain rfl := Option.some.inj hu
    cases type with
    | date32 => simp [Value.hasType]
    | date64 =>
      apply decide_eq_true
      simp only [dayNanos]
      omega
    | timestamp unit tz =>
      apply decide_eq_true
      simp only [dayNanos]
      cases unit <;> simp only [Predicate.TimeUnit.nanos] <;> omega
    | _ => exact hsuits.elim
  | datetime s =>
    obtain rfl := Option.some.inj hu
    cases type with
    | timestamp unit tz => cases tz <;> exact hsuits
    | _ => exact hsuits.elim
  | decimal d =>
    obtain rfl := Option.some.inj hu
    cases type with
    | decimal bits precision scale => exact hsuits
    | _ => exact hsuits.elim
  | _ =>
    obtain rfl := Option.some.inj hu
    cases type with
    | _ => first | rfl | exact hsuits.elim

theorem hasType_flip {type : Prim} {v : Option Value} (hv : IsZero v)
    (h : ∀ u ∈ v, Value.hasType type u = true) : ∀ u ∈ flip v, Value.hasType type u = true := by
  obtain rfl | rfl := hv
  · rintro u ⟨rfl⟩
    have htype := h _ rfl
    cases type <;> first | rfl | cases htype
  · rintro u ⟨rfl⟩
    have htype := h _ rfl
    cases type <;> first | rfl | cases htype

theorem pyEq_of_partition {k t : Text → PyValue} (hk : k ∈ data.rows) (ht : t ∈ data.rows)
    (hnan : ∀ c ∈ partitions, (t c).isNan = false)
    (hsame : ∀ c ∈ partitions, Same ((k c).value (types c)) ((t c).value (types c))) :
    ∀ c ∈ partitions, pyEq py (k c) (t c) = true := by
  intro c hc
  have hiff := same_nan (hsame c hc)
  rw [← isNan_iff, ← isNan_iff, hnan c hc] at hiff
  exact pyEq_of_same hk ht (hsame c hc) (by simpa using hiff)

theorem named_variants {t k l : Text → PyValue}
    (hk : Named py partitions data k) (hl : Named py partitions data l)
    (hkt : ∀ c ∈ partitions, pyEq py (k c) (t c) = true)
    (hlt : ∀ c ∈ partitions, pyEq py (l c) (t c) = true) :
    ∀ c ∈ partitions, k c = l c := by
  have htuple := named_unique hk hl fun c hc => by
    obtain ⟨hknan, -, hkey⟩ := pyEq_iff.mp (hkt c hc)
    obtain ⟨hlnan, -, hkey'⟩ := pyEq_iff.mp (hlt c hc)
    exact pyEq_iff.mpr ⟨hknan, hlnan, hkey.trans hkey'.symm⟩
  exact map_inj_left.mp htuple

/-- The named rows cover exactly the partitions of the data. -/
def Replaces (py : Python) (types : Text → Prim) (partitions : List Text) (data : Data) : Prop :=
  ∀ row : Text → Option Value, Typed types partitions row →
    ((∃ k, Named py partitions data k ∧ Exactly types partitions row k) ↔
      ∃ t ∈ data.rows, SamePartition types partitions row t)

theorem typed_values (hsuits : ∀ t ∈ data.rows, ∀ c ∈ partitions, (t c).Suits (types c))
    {t : Text → PyValue} (ht : t ∈ data.rows) :
    Typed types partitions fun c => (t c).value (types c) :=
  fun c hc => suits_hasType (hsuits t ht c hc)

variable {row : Text → Option Value}

/-- Where all partitions are covered, the rows of a NaN-free row's partition have the values of a
named row that Python takes for the row's. -/
theorem Replaces.named (h : Replaces py types partitions data) {t : Text → PyValue}
    (ht : t ∈ data.rows) (hnan : ∀ c ∈ partitions, (t c).isNan = false)
    (htyped : Typed types partitions row) (hsame : SamePartition types partitions row t) :
    ∃ k, Named py partitions data k ∧ Exactly types partitions row k ∧
      ∀ c ∈ partitions, pyEq py (k c) (t c) = true := by
  obtain ⟨k, hk, hexact⟩ := (h row htyped).mpr ⟨t, ht, hsame⟩
  refine ⟨k, hk, hexact, @pyEq_of_partition py types partitions data k t hk.1 ht hnan ?_⟩
  intro c hc
  rw [← hexact c hc]
  exact hsame c hc

/-- The values of a row with those of one column replaced. -/
def instead (row : Text → Option Value) (c : Text) (v : Option Value) : Text → Option Value :=
  fun d => if d = c then v else row d

theorem alone_of_replaces (hsuits : ∀ t ∈ data.rows, ∀ c ∈ partitions, (t c).Suits (types c))
    (h : Replaces py types partitions data) {t : Text → PyValue} (ht : t ∈ data.rows)
    (hnan : ∀ c ∈ partitions, (t c).isNan = false) : Alone py types partitions data t := by
  obtain ⟨k, hk, hexact, hkt⟩ := h.named ht hnan (typed_values hsuits ht) fun c _ => rfl
  refine ⟨fun c hc => ⟨hnan c hc, ?_⟩, ?_⟩
  · intro hzero
    obtain ⟨hflip, hne⟩ := flip_zero hzero
    have htyped : Typed types partitions
        (instead (fun d => (t d).value (types d)) c (flip ((t c).value (types c)))) := by
      intro d hd
      unfold instead
      split_ifs with heq
      · rw [heq]
        exact hasType_flip hzero (typed_values hsuits ht c hc)
      · exact typed_values hsuits ht d hd
    have hsame : SamePartition types partitions
        (instead (fun d => (t d).value (types d)) c (flip ((t c).value (types c)))) t := by
      intro d _
      unfold instead
      split_ifs with heq
      · rw [heq]
        exact hflip
      · rfl
    obtain ⟨l, hl, hexact', hlt⟩ := h.named ht hnan htyped hsame
    have hvalue := hexact' c hc
    rw [← named_variants hk hl hkt hlt c hc, ← hexact c hc, instead, if_pos rfl] at hvalue
    exact hne hvalue
  · intro u hu hequal c hc
    have hunan : ∀ c ∈ partitions, (u c).isNan = false := fun c hc => (pyEq_iff.mp (hequal c hc)).1
    obtain ⟨l, hl, hexact', hlu⟩ := h.named hu hunan (typed_values hsuits hu) fun c _ => rfl
    have hlt : ∀ c ∈ partitions, pyEq py (l c) (t c) = true := by
      intro c hc
      obtain ⟨hlnan, -, hkey⟩ := pyEq_iff.mp (hlu c hc)
      obtain ⟨-, htnan, hkey'⟩ := pyEq_iff.mp (hequal c hc)
      exact pyEq_iff.mpr ⟨hlnan, htnan, hkey.trans hkey'⟩
    have hvalue := hexact' c hc
    rw [← named_variants hk hl hkt hlt c hc, ← hexact c hc] at hvalue
    exact hvalue

theorem allSigned_of_replaces (h : Replaces py types partitions data) {t : Text → PyValue}
    (ht : t ∈ data.rows) (hnan : ∃ c ∈ partitions, (t c).isNan = true) :
    AllSigned types partitions data t := by
  refine ⟨hnan, ?_⟩
  intro row htyped hsame
  obtain ⟨k, hk, hexact⟩ := (h row htyped).mpr ⟨t, ht, hsame⟩
  exact ⟨k, hk.1, hexact⟩

theorem named_of_allSigned {t : Text → PyValue} (h : AllSigned types partitions data t)
    (htyped : Typed types partitions row) (hsame : SamePartition types partitions row t) :
    ∃ k, Named py partitions data k ∧ Exactly types partitions row k := by
  obtain ⟨⟨c, hc, hnan⟩, hall⟩ := h
  obtain ⟨k, hk, hexact⟩ := hall row htyped hsame
  have hrow := (same_nan (hsame c hc)).mpr (isNan_iff.mp hnan)
  rw [hexact c hc] at hrow
  exact ⟨k, named_of_nan hk hc (isNan_iff.mpr hrow), hexact⟩

theorem named_of_alone {t : Text → PyValue} (ht : t ∈ data.rows)
    (h : Alone py types partitions data t) (hsame : SamePartition types partitions row t) :
    ∃ k, Named py partitions data k ∧ Exactly types partitions row k := by
  obtain ⟨hplain, hequal⟩ := h
  have hrow : Exactly types partitions row t :=
    fun c hc => same_of_not_zero (hplain c hc).2 (hsame c hc)
  obtain hnamed | ⟨k, hk, hkt⟩ := @named_or_equal py partitions data t ht
  · exact ⟨t, hnamed, hrow⟩
  · refine ⟨k, hk, fun c hc => ?_⟩
    rw [hrow c hc, hequal k hk.1 hkt c hc]

/-- The named rows cover the data's partitions exactly if each row of the data has either neither a
zero nor a NaN nor an equal with other values, or a NaN and its zeros signed in every way. -/
theorem replaces_iff (hsuits : ∀ t ∈ data.rows, ∀ c ∈ partitions, (t c).Suits (types c)) :
    Replaces py types partitions data ↔
      ∀ t ∈ data.rows, AllSigned types partitions data t ∨ Alone py types partitions data t := by
  constructor
  · intro h t ht
    by_cases hnan : ∃ c ∈ partitions, (t c).isNan = true
    · exact Or.inl (allSigned_of_replaces h ht hnan)
    · apply Or.inr
      apply alone_of_replaces hsuits h ht
      intro c hc
      by_contra hne
      exact hnan ⟨c, hc, by simpa using hne⟩
  · intro h row htyped
    constructor
    · rintro ⟨k, hk, hexact⟩
      refine ⟨k, hk.1, fun c hc => ?_⟩
      rw [hexact c hc]
      rfl
    · rintro ⟨t, ht, hsame⟩
      obtain hsigned | halone := h t ht
      · exact named_of_allSigned hsigned htyped hsame
      · exact named_of_alone ht halone hsame

/-- The predicate of a dynamic overwrite is read as a condition that is true on the rows of the
partitions the data names, exactly if each row of the data has either neither a float zero nor a
NaN nor an equal with other values, or a NaN and its zeros signed in every way. -/
theorem dynamicPartitionPredicate_exact_iff (engine : Engine py) (chars : Ansi.Alphabet) {limit : ℕ}
    {text : Text} (hsuits : ∀ t ∈ data.rows, ∀ c ∈ partitions, (t c).Suits (types c))
    (h : dynamicPartitionPredicate py partitions limit data = .ok text) :
    (∃ condition, Ansi.parse chars text = some condition ∧
      ∀ row : Text → Option Value, Typed types partitions row →
        (condition.eval (engine.compare types) row = some true ↔
          ∃ t ∈ data.rows, SamePartition types partitions row t)) ↔
      ∀ t ∈ data.rows, AllSigned types partitions data t ∨ Alone py types partitions data t := by
  obtain ⟨condition, hparse, hnamed⟩ := predicate_named engine chars hsuits h
  rw [← replaces_iff hsuits]
  constructor
  · rintro ⟨condition', hparse', hexact⟩ row htyped
    rw [hparse] at hparse'
    obtain rfl := Option.some.inj hparse'
    rw [← hnamed row]
    exact hexact row htyped
  · intro hreplaces
    refine ⟨condition, hparse, fun row htyped => ?_⟩
    rw [hnamed row]
    exact hreplaces row htyped

end

/-- The digits of a double, all of them. -/
def plainRepr : Fl → Text
  | .fin q =>
    if q = 0 then ['0', '.', '0']
    else Numeral.minus (q < 0) ++ (Numeral.natural (q.num.natAbs * 5 ^ q.den.log2) ++ [] ++
      'e' :: '-' :: Numeral.natural q.den.log2)
  | _ => ['-', '0', '.', '0']

theorem zero_unsigned : Ansi.Unsigned ['0'] ['.', '0'] [] where
  whole_ne := by decide
  whole_digit := by decide
  frac_form := Or.inr ⟨['0'], rfl, by decide⟩
  power_form := Or.inl rfl

def plain : Python where
  repr := plainRepr
  repr_numeral x hx := by
    cases x with
    | fin q =>
      by_cases hq : q = 0
      · exact ⟨false, _, _, _, by rw [plainRepr, if_pos hq]; rfl, zero_unsigned⟩
      · refine ⟨decide (q < 0), _, _, _, by rw [plainRepr, if_neg hq], ?_⟩
        exact ⟨Numeral.natural_ne_nil _, Numeral.natural_digit _, Or.inl rfl,
          Or.inr ⟨'e', true, _, rfl, Or.inl rfl, Numeral.natural_ne_nil _, Numeral.natural_digit _⟩⟩
    | _ => exact ⟨true, _, _, _, rfl, zero_unsigned⟩
  sharedZone := true

theorem plain_zero : plain.repr (.fin 0) = ['0', '.', '0'] := by
  have hrepr : plainRepr (.fin 0) = ['0', '.', '0'] := by rw [plainRepr, if_pos rfl]
  exact hrepr

theorem den_of_double {q : ℚ} (hq : Arrow.FloatFormat.double.Holds q) : q.den = 2 ^ q.den.log2 := by
  obtain ⟨m, e, -, -, -, rfl⟩ := hq
  have hdvd : ((m : ℚ) * 2 ^ e).den ∣ 2 ^ (-e).toNat := by
    by_cases he : 0 ≤ e
    · obtain ⟨n, rfl⟩ := Int.eq_ofNat_of_zero_le he
      have hint : (m : ℚ) * 2 ^ (n : ℤ) = ((m * 2 ^ n : ℤ) : ℚ) := by push_cast; rfl
      have hden : ((m * 2 ^ n : ℤ) : ℚ).den = 1 := Rat.den_intCast _
      rw [hint, hden]
      exact one_dvd _
    · obtain ⟨n, rfl⟩ : ∃ n : ℕ, e = -n := ⟨(-e).toNat, by omega⟩
      have hfrac : (m : ℚ) * 2 ^ (-(n : ℤ)) = Rat.divInt m ((2 ^ n : ℕ) : ℤ) := by
        rw [Rat.divInt_eq_div, zpow_neg, zpow_natCast]
        push_cast
        rfl
      rw [hfrac, neg_neg, Int.toNat_natCast]
      exact_mod_cast Rat.den_dvd m ((2 ^ n : ℕ) : ℤ)
  obtain ⟨k, -, hk⟩ := (Nat.dvd_prime_pow Nat.prime_two).mp hdvd
  rw [hk, Nat.log2_two_pow]

theorem read_plainRepr {q : ℚ} (hq : q ≠ 0) (hdouble : Arrow.FloatFormat.double.Holds q) :
    ∃ n, Numeral.read (plainRepr (.fin q)) = some n ∧ n.value = q := by
  have hden := den_of_double hdouble
  have hsign := Numeral.splitSign_digits (Numeral.natural_ne_nil (q.num.natAbs * 5 ^ q.den.log2))
    (Numeral.natural_digit _) ('e' :: '-' :: Numeral.natural q.den.log2)
  have hread := Numeral.read_natural (Numeral.natural_ne_nil (q.num.natAbs * 5 ^ q.den.log2))
    (Numeral.natural_digit _) (by rintro c ⟨rfl⟩; decide)
    (Numeral.readExponent_int (Or.inl rfl : 'e' = 'e' ∨ 'e' = 'E') true q.den.log2)
  rw [plainRepr, if_neg hq, append_nil]
  refine ⟨_, Numeral.read_signed _ hsign hread, ?_⟩
  rw [Numeral.number_natural, signed_value, Numeral.value]
  have hnum : (if decide (q < 0) = true then (-1 : ℚ) else 1) * q.num.natAbs = q.num := by
    have habs : ((q.num.natAbs : ℤ) : ℚ) = ((|q.num| : ℤ) : ℚ) := by rw [Int.abs_eq_natAbs]
    rw [Int.cast_natCast] at habs
    rw [habs]
    by_cases hneg : q < 0
    · rw [abs_of_neg (Rat.num_neg.mpr hneg)]
      simp [hneg]
    · rw [abs_of_nonneg (Rat.num_nonneg.mpr (not_lt.mp hneg))]
      simp [hneg]
  have hpow : (10 : ℚ) ^ (q.den.log2 : ℤ) = 5 ^ q.den.log2 * q.den := by
    have hcast : (q.den : ℚ) = 2 ^ q.den.log2 := by exact_mod_cast hden
    rw [hcast, zpow_natCast, ← mul_pow]
    norm_num
  have hq5 : (5 : ℚ) ^ q.den.log2 ≠ 0 := by positivity
  have hqden : (q.den : ℚ) ≠ 0 := by exact_mod_cast q.den_nz
  calc (if decide (q < 0) = true then (-1 : ℚ) else 1) *
        (((q.num.natAbs * 5 ^ q.den.log2 : ℕ) : ℤ) *
          10 ^ (- -(if true = true then -(q.den.log2 : ℤ) else q.den.log2)))
      = (if decide (q < 0) = true then (-1 : ℚ) else 1) * q.num.natAbs * 5 ^ q.den.log2 *
          (10 ^ (q.den.log2 : ℤ))⁻¹ := by
        rw [if_pos rfl, neg_neg, zpow_neg, Int.cast_natCast, Nat.cast_mul, Nat.cast_pow,
          Nat.cast_ofNat]
        ring
    _ = q := by
        rw [hnum, hpow, ← Rat.mul_den_eq_num q]
        field_simp

def plainCast : Prim → Text → Option Value
  | .text _, text => some (.text text)
  | .decimal bits precision scale, text =>
    (Numeral.read text).bind fun n =>
      if Value.hasType (.decimal bits precision scale) (.num n.value) then some (.num n.value)
      else none
  | .timestamp unit tz, text =>
    (readMoment text).bind fun micros =>
      if Value.hasType (.timestamp unit tz) (.time (micros * 1000)) then
        some (.time (micros * 1000))
      else none
  | .float _, text =>
    if text = ['N', 'a', 'N'] then some (.float .nan)
    else if text = ['i', 'n', 'f'] then some (.float .posInf)
    else if text = ['-', 'i', 'n', 'f'] then some (.float .negInf)
    else none
  | .date32, text | .date64, text =>
    (readDay text).bind fun read => if read.2 = [] then some (.time (read.1 * dayNanos)) else none
  | _, _ => none

def plainNumber (type : Prim) (text : Text) : Option Value :=
  (Numeral.read text).map fun n =>
    if type.isFloating then
      .float (if n.value = 0 ∧ text.head? = some '-' then .negZero else .fin n.value)
    else .num n.value

/-- An engine that reads texts as they are written. -/
def plainEngine : Engine plain where
  cast := plainCast
  number := plainNumber
  cast_text _ _ := rfl
  cast_decimal bits precision scale text n hread htype := by
    simp [plainCast, hread, htype]
  cast_date type text day htype hread := by
    cases type with
    | date32 => simp [plainCast, hread]
    | date64 => simp [plainCast, hread]
    | _ => cases htype
  cast_moment unit tz text micros hread htype := by
    simp [plainCast, hread, htype]
  cast_nan := rfl
  cast_inf := rfl
  cast_negInf := rfl
  number_whole type n htype _ := by
    have hfloat : type.isFloating = false := by
      cases type <;> first | rfl | simp [Prim.isInteger, Prim.isDecimal] at htype
    simp [plainNumber, Numeral.read_int, Numeral.value_whole, hfloat]
  number_float bits n _ := by
    have hhead : ¬ (n = 0 ∧ (Numeral.int n).head? = some '-') := by
      rintro ⟨rfl, hminus⟩
      cases hminus
    simp [plainNumber, Numeral.read_int, Numeral.value_whole, Prim.isFloating, hhead]
  number_repr bits x hx := by
    cases x with
    | fin q =>
      by_cases hq : q = 0
      · subst hq
        have hrepr : plain.repr (.fin 0) = ['0', '.', '0'] := plain_zero
        have hread : Numeral.read ['0', '.', '0'] = some ⟨0, 1⟩ := by decide
        simp [plainNumber, hrepr, hread, Prim.isFloating, Numeral.value]
      · obtain ⟨n, hread, rfl⟩ := read_plainRepr hq hx
        have hrepr : plain.repr = plainRepr := rfl
        simp [plainNumber, hrepr, hread, Prim.isFloating, hq]
    | negZero =>
      have hrepr : plain.repr .negZero = ['-', '0', '.', '0'] := rfl
      have hread : Numeral.read ['-', '0', '.', '0'] = some ⟨0, 1⟩ := by decide
      simp [plainNumber, hrepr, hread, Prim.isFloating, Numeral.value]
    | _ => exact hx.elim

/-- Data of one row. -/
def oneRow (columns : List Text) (row : Text → PyValue) : Data where
  columns := columns
  rows := [row]
  uniform c := by
    cases h : (row c).kind with
    | none => exact ⟨.bool, by simp [h]⟩
    | some kind => exact ⟨kind, by simp [h]⟩
  zoned c := by
    cases h : row c with
    | datetime s =>
      refine ⟨s.offset.map fun offset _ => offset, ?_⟩
      rintro row' hrow t ht
      rw [mem_singleton.mp hrow, h, PyValue.datetime.injEq] at ht
      rw [← ht]
      cases s.offset <;> rfl
    | _ => exact ⟨none, by simp [h]⟩

theorem tuples_oneRow (py : Python) (partitions : List Text) (row : Text → PyValue) :
    tuples py partitions (oneRow partitions row) = [partitions.map row] := by
  simp [tuples, oneRow, collect]

theorem predicate_oneRow (py : Python) {partitions : List Text} (hne : partitions ≠ [])
    (row : Text → PyValue) :
    dynamicPartitionPredicate py partitions maxDynamicPartitions (oneRow partitions row) =
      .ok (clause py partitions (partitions.map row)) := by
  have hmissing : partitions.filter (· ∉ (oneRow partitions row).columns) = [] := by
    rw [filter_eq_nil_iff]
    intro c hc
    exact fun hmissing => of_decide_eq_true hmissing hc
  rw [dynamicPartitionPredicate, if_neg hne, hmissing, if_neg (by simp), tuples_oneRow,
    if_neg (by simp), if_neg (by simp [maxDynamicPartitions]), map_singleton,
    intercalate_singleton]

/-- A string with a quote, and a NaN. -/
def quoted (c : Text) : PyValue :=
  if c = ['p'] then .str ['O', '\'', 'B'] else .float .nan

def quotedTypes (c : Text) : Prim := if c = ['p'] then .text .string else .float 64

theorem dynamicPartitionPredicate_exact_iff_quoted :
    ∃ condition, Ansi.parse Ansi.ascii
        (clause plain [['p'], ['"']] ([['p'], ['"']].map quoted)) = some condition ∧
      ∀ row : Text → Option Value, Typed quotedTypes [['p'], ['"']] row →
        (condition.eval (plainEngine.compare quotedTypes) row = some true ↔
          ∃ t ∈ (oneRow [['p'], ['"']] quoted).rows,
            SamePartition quotedTypes [['p'], ['"']] row t) := by
  refine (dynamicPartitionPredicate_exact_iff plainEngine Ansi.ascii ?_
    (predicate_oneRow plain (by decide) quoted)).mpr ?_
  · intro t ht c hc
    rw [List.mem_singleton.mp ht]
    simp only [List.mem_cons, List.not_mem_nil, or_false] at hc
    obtain rfl | rfl := hc
    · trivial
    · exact Or.inr (Or.inl rfl)
  · intro t ht
    rw [List.mem_singleton.mp ht]
    refine Or.inl ⟨⟨['"'], by decide, rfl⟩, ?_⟩
    intro row _ hsame
    refine ⟨quoted, mem_singleton_self _, fun c hc => same_of_not_zero ?_ (hsame c hc)⟩
    simp only [mem_cons, not_mem_nil, or_false] at hc
    obtain rfl | rfl := hc
    · rintro (h | h) <;> cases h
    · rintro (h | h) <;> cases h

/-- Data of a zero names the partition `0.0` and not that of `-0.0`, which is the same to Spark. -/
theorem zero_kept :
    dynamicPartitionPredicate plain [['p']] maxDynamicPartitions
        (oneRow [['p']] fun _ => .float (.fin 0)) =
      .ok ['(', '"', 'p', '"', ' ', '=', ' ', '0', '.', '0', ')'] ∧
    Ansi.parse Ansi.ascii ['(', '"', 'p', '"', ' ', '=', ' ', '0', '.', '0', ')'] =
      some (.equals ['p'] (.number false ['0', '.', '0'])) ∧
    SamePartition (fun _ => .float 64) [['p']] (fun _ => some (.float .negZero))
      (fun _ => .float (.fin 0)) ∧
    (Ansi.Condition.equals ['p'] (.number false ['0', '.', '0'])).eval
      (plainEngine.compare fun _ => .float 64) (fun _ => some (.float .negZero)) = some false := by
  have hread : Numeral.read ['0', '.', '0'] = some ⟨0, 1⟩ := by decide
  refine ⟨(predicate_oneRow plain (by decide) _).trans ?_, by decide, fun _ _ => rfl, ?_⟩
  · change Except.ok (['('] ++ _ ++ [')']) = _
    simp [test, sqlIdent, sqlLiteral, sqlValue, plain_zero, Doubled.double]
  · simp [Ansi.Condition.eval, Engine.compare, Engine.meaning, plainEngine, plainNumber, hread,
      Numeral.minus, Numeral.value, Prim.isFloating, exact, Fl.totalOrder, Fl.totalKey]

end DeltaSwamp.Dynamic
