import DeltaSwamp.Dynamic.Compared
import Mathlib.Data.List.Pairwise

/-!
# The predicate of a dynamic overwrite

`_dynamic_partition_predicate` of `engine/deltars.py`: the distinct partition tuples of the
data, sorted by their literals, each rendered as a clause; and what the engine reads in it.
-/

namespace DeltaSwamp.Dynamic

open List

open Predicate (Prim Value Fl)

section
variable {α : Type} (same : α → α → Bool)

/-- Items added to a set: one that is the same as a member is left out. -/
def collect (members : List α) : List α → List α
  | [] => members
  | item :: rest =>
    if members.any (same · item) then collect members rest else collect (members ++ [item]) rest

attribute [simp] collect

variable {same} {members items : List α}

theorem subset_collect : members ⊆ collect same members items := by
  induction items generalizing members with
  | nil => exact List.Subset.refl members
  | cons item rest ih =>
    rw [collect]
    split_ifs
    · exact ih
    · exact List.Subset.trans (subset_append_left members [item]) ih

theorem collect_subset {k : α} (h : k ∈ collect same members items) : k ∈ members ∨ k ∈ items := by
  induction items generalizing members with
  | nil => exact Or.inl h
  | cons item rest ih =>
    rw [collect] at h
    split_ifs at h
    · exact (ih h).imp_right (mem_cons_of_mem item)
    · obtain hk | hk := ih h
      · obtain hk | hk := mem_append.mp hk
        · exact Or.inl hk
        · exact Or.inr (by rw [mem_singleton.mp hk]; exact mem_cons_self)
      · exact Or.inr (mem_cons_of_mem item hk)

theorem collect_covers {x : α} (h : x ∈ items) :
    x ∈ collect same members items ∨ ∃ k ∈ collect same members items, same k x = true := by
  induction items generalizing members with
  | nil => cases h
  | cons item rest ih =>
    rw [collect]
    obtain rfl | h := mem_cons.mp h
    · split_ifs with hany
      · obtain ⟨k, hk, hsame⟩ := any_eq_true.mp hany
        exact Or.inr ⟨k, subset_collect hk, hsame⟩
      · exact Or.inl (subset_collect (by simp))
    · split_ifs
      · exact ih h
      · exact ih h

theorem collect_pairwise (h : members.Pairwise fun a b => same a b = false) :
    (collect same members items).Pairwise fun a b => same a b = false := by
  induction items generalizing members with
  | nil => exact h
  | cons item rest ih =>
    rw [collect]
    split_ifs with hany
    · exact ih h
    · apply ih
      rw [pairwise_append]
      refine ⟨h, pairwise_singleton _ _, ?_⟩
      intro k hk x hx
      rw [mem_singleton.mp hx]
      by_contra hsame
      exact hany (any_eq_true.mpr ⟨k, hk, by simpa using hsame⟩)

end

inductive Kind where
  | bool
  | int
  | float
  | decimal
  | str
  | date
  | datetime
  | bytes
  deriving DecidableEq

def PyValue.kind : PyValue → Option Kind
  | .none => Option.none
  | .bool _ => some .bool
  | .int _ => some .int
  | .float _ => some .float
  | .decimal _ => some .decimal
  | .str _ => some .str
  | .date _ => some .date
  | .datetime _ => some .datetime
  | .bytes _ => some .bytes

/-- Arrow data as Python values: each column has one type, and one time zone where it has any. -/
structure Data where
  columns : List Text
  rows : List (Text → PyValue)
  uniform : ∀ c, ∃ kind, ∀ row ∈ rows, ∀ k ∈ (row c).kind, k = kind
  zoned : ∀ c, ∃ zone : Option (ℤ → ℤ), ∀ row ∈ rows, ∀ s, row c = .datetime s →
    s.offset = zone.map fun offset => offset s.micros

section
variable (py : Python)

/-- `==` of two values of a column: NaN is unequal to itself, and two datetimes with one `tzinfo`
are compared by their wall clocks. -/
def pyEq : PyValue → PyValue → Bool
  | .none, .none => true
  | .bool a, .bool b => a = b
  | .int a, .int b => a = b
  | .float x, .float y => x.ieeeEq y
  | .decimal a, .decimal b => a.value = b.value
  | .str a, .str b => a = b
  | .date a, .date b => a.date = b.date
  | .datetime a, .datetime b =>
    match a.offset, b.offset with
    | none, none => a.wall.micros = b.wall.micros
    | some _, some _ =>
      if py.sharedZone then a.wall.micros = b.wall.micros else a.micros = b.micros
    | _, _ => false
  | .bytes a, .bytes b => a = b
  | _, _ => false

/-- `==` of two tuples. -/
def tupleEq (s t : List PyValue) : Bool := s.isEqv t (pyEq py)

/-- Why no predicate can be built. -/
inductive Refusal where
  | unpartitioned
  | missing (columns : List Text)
  | empty
  | tooMany (partitions limit : ℕ)

def Refusal.why : Refusal → String
  | .unpartitioned => "the table is not partitioned, so there are no partitions to replace"
  | .missing columns => "the data has no " ++ ", ".intercalate (columns.map String.ofList) ++
    " column, so the partitions it would replace cannot be determined"
  | .empty => "the data is empty, so no partitions are implied"
  | .tooMany partitions limit => "the data spans " ++ toString partitions ++
    " partitions, above the " ++ toString limit ++ " limit for a generated predicate"

/-- A column compared with a value. -/
def test (column : Text) : PyValue → Text
  | .none => sqlIdent column ++ [' ', 'I', 'S', ' ', 'N', 'U', 'L', 'L']
  | value => sqlIdent column ++ [' ', '=', ' '] ++ sqlLiteral py value

def clause (partitions : List Text) (values : List PyValue) : Text :=
  ['('] ++ [' ', 'A', 'N', 'D', ' '].intercalate (List.zipWith (test py) partitions values) ++ [')']

/-- The order of tuples by their literals. -/
def before (s t : List PyValue) : Bool := s.map (sqlLiteral py) ≤ t.map (sqlLiteral py)

/-- The distinct tuples of the data's partition values. -/
def tuples (partitions : List Text) (data : Data) : List (List PyValue) :=
  (collect (tupleEq py) [] (data.rows.map fun row => partitions.map row)).mergeSort (before py)

/-- `max_dynamic_partitions` -/
def maxDynamicPartitions : ℕ := 1000

/-- `_dynamic_partition_predicate` -/
def dynamicPartitionPredicate (partitions : List Text) (limit : ℕ) (data : Data) :
    Except Refusal Text :=
  if partitions = [] then .error .unpartitioned
  else if (partitions.filter (· ∉ data.columns)) ≠ [] then
    .error (.missing (partitions.filter (· ∉ data.columns)))
  else if tuples py partitions data = [] then .error .empty
  else if limit < (tuples py partitions data).length then
    .error (.tooMany (tuples py partitions data).length limit)
  else
    .ok ([' ', 'O', 'R', ' '].intercalate ((tuples py partitions data).map (clause py partitions)))

end

section
variable {py : Python} (engine : Engine py) {chars : Ansi.Alphabet} (types : Text → Prim)

/-- A condition that a row meets if its value in a column is the one given. -/
def Pins (column : Text) (v : PyValue) (condition : Ansi.Condition) : Prop :=
  ∀ row : Text → Option Value,
    condition.eval (engine.compare types) row = some true ↔ row column = v.value (types column)

variable {engine types} {column : Text} {v : PyValue}

theorem test_value (hv : v ≠ .none) :
    test py column v = sqlIdent column ++ [' ', '=', ' '] ++ sqlLiteral py v := by
  cases v with
  | none => exact absurd rfl hv
  | _ => rfl

theorem exact_map {w : Option Value} {u : Value} :
    w.map (exact u) = some true ↔ some u = w := by
  rw [Option.map_eq_some_iff]
  constructor
  · rintro ⟨w, rfl, hexact⟩
    rw [exact_iff.mp hexact]
  · rintro rfl
    exact ⟨u, rfl, exact_iff.mpr rfl⟩

theorem value_ne_none (hv : v ≠ .none) (type : Prim) : v.value type ≠ none := by
  cases v with
  | none => exact absurd rfl hv
  | _ => simp [PyValue.value]

theorem test_pins (hsuits : v.Suits (types column)) :
    ∃ tokens condition, Ansi.Written chars (test py column v) tokens ∧
      Ansi.IsTest tokens condition ∧ Pins engine types column v condition := by
  by_cases hv : v = .none
  · subst hv
    have his : Ansi.Written chars ['I', 'S'] [.word ['I', 'S']] := .word (by decide) (by decide)
    have hnull : Ansi.Written chars ['N', 'U', 'L', 'L'] [.word ['N', 'U', 'L', 'L']] :=
      .word (by decide) (by decide)
    refine ⟨_, .isNull column, (Ansi.Written.name column).blank (his.blank hnull),
      ⟨fun _ => rfl, _, _, _, rfl⟩, ?_⟩
    intro row
    simp [Ansi.Condition.eval, PyValue.value]
  · obtain ⟨literal, ⟨tokens, hwritten, hread⟩, hmeaning⟩ := sqlLiteral_meaning engine hv hsuits
    have hequals : Ansi.Written chars ['='] [.mark '='] := .lone (by decide) (by decide)
    have hall := (Ansi.Written.name column).blank (hequals.blank hwritten)
    refine ⟨.name '"' column :: .mark '=' :: tokens, .equals column literal, ?_,
      ⟨?_, _, _, _, rfl⟩, ?_⟩
    · rw [test_value hv, append_assoc]
      exact hall
    · intro rest
      change (Ansi.readLiteral (tokens ++ rest)).map _ = _
      rw [hread rest]
      rfl
    · intro row
      rw [Ansi.Condition.eval]
      cases hrow : row column with
      | none =>
        have hne := value_ne_none hv (types column)
        simp [hne.symm]
      | some u =>
        rw [Option.bind_some, Engine.compare, hmeaning, exact_map]

variable {t : Text → PyValue}

theorem tests_pin {columns : List Text} (hsuits : ∀ c ∈ columns, (t c).Suits (types c)) :
    ∃ tokens conditions,
      List.Forall₂ (Ansi.Written chars) (columns.map fun c => test py c (t c)) tokens ∧
        List.Forall₂ Ansi.IsTest tokens conditions ∧
          List.Forall₂ (fun c condition => Pins engine types c (t c) condition) columns
            conditions := by
  induction columns with
  | nil => exact ⟨[], [], .nil, .nil, .nil⟩
  | cons c columns ih =>
    obtain ⟨tokens, conditions, hwritten, htest, hpins⟩ :=
      ih fun d hd => hsuits d (mem_cons_of_mem c hd)
    obtain ⟨first, condition, hfirst, hone, hpin⟩ := test_pins (hsuits c mem_cons_self)
    exact ⟨_, _, .cons hfirst hwritten, .cons hone htest, .cons hpin hpins⟩

theorem pins_all {columns : List Text} {conditions : List Ansi.Condition}
    (h : List.Forall₂ (fun c condition => Pins engine types c (t c) condition) columns conditions)
    (row : Text → Option Value) :
    (∀ condition ∈ conditions, condition.eval (engine.compare types) row = some true) ↔
      ∀ c ∈ columns, row c = (t c).value (types c) := by
  induction h with
  | nil => simp
  | cons hpin _ ih => rw [forall_mem_cons, forall_mem_cons, ih, hpin row]

variable (engine types) in
/-- A condition that a row meets if it has the values of a data row in the partition columns. -/
def PinsAll (partitions : List Text) (t : Text → PyValue) (condition : Ansi.Condition) : Prop :=
  ∀ row : Text → Option Value, condition.eval (engine.compare types) row = some true ↔
    ∀ c ∈ partitions, row c = (t c).value (types c)

/-- Tokens that read as a condition in few enough turns. -/
structure IsClause (turns : ℕ) (tokens : List Ansi.Token) (condition : Ansi.Condition) : Prop where
  reads : Ansi.Reads .primary turns (fun _ => false) tokens condition
  long : turns ≤ tokens.length + 1

variable {partitions : List Text}

theorem clause_pins (hne : partitions ≠ []) (hsuits : ∀ c ∈ partitions, (t c).Suits (types c)) :
    ∃ tokens condition, Ansi.Written chars (clause py partitions (partitions.map t)) tokens ∧
      IsClause (partitions.length + 3) tokens condition ∧
        PinsAll engine types partitions t condition := by
  obtain ⟨tokens, conditions, hwritten, htest, hpins⟩ := @tests_pin py engine chars types t _ hsuits
  obtain ⟨c, rest, rfl⟩ := exists_cons_of_ne_nil hne
  rw [map_cons] at hwritten
  obtain _ | ⟨hfirst, hrest⟩ := hwritten
  rename_i first restTokens
  obtain _ | ⟨hone, hmany⟩ := htest
  rename_i condition restConditions
  have hand : Ansi.Written chars ['A', 'N', 'D'] [.word ['A', 'N', 'D']] :=
    .word (by decide) (by decide)
  have hlength := hrest.length_eq
  rw [length_map] at hlength
  have hjoined := Ansi.length_joined ['A', 'N', 'D'] first restTokens
  have htext : clause py (c :: rest) ((c :: rest).map t) = '(' :: (Ansi.joinedText ['A', 'N', 'D']
      (test py c (t c)) (rest.map fun c => test py c (t c)) ++ [')']) := by
    rw [Ansi.joinedText_eq, clause, zipWith_map_right, zipWith_self, map_cons]
    rfl
  have hreads := Ansi.reads_conjunction hone hmany
  rw [← hlength] at hreads
  have hclause := (hand.joined hfirst hrest).parenthesised
  rw [← htext] at hclause
  refine ⟨_, _, hclause, ⟨hreads, ?_⟩, ?_⟩
  · obtain ⟨quote, column, more, rfl⟩ := hone.starts
    simp only [length_cons, length_append, length_nil] at hjoined ⊢
    omega
  · intro row
    rw [Ansi.Condition.and_eq_true]
    exact pins_all hpins row

variable {ts : List (Text → PyValue)}

theorem clauses_pin (hne : partitions ≠ [])
    (hsuits : ∀ t ∈ ts, ∀ c ∈ partitions, (t c).Suits (types c)) :
    ∃ tokens conditions,
      List.Forall₂ (Ansi.Written chars)
        (ts.map fun t => clause py partitions (partitions.map t)) tokens ∧
        List.Forall₂ (IsClause (partitions.length + 3)) tokens conditions ∧
          List.Forall₂ (PinsAll engine types partitions) ts conditions := by
  induction ts with
  | nil => exact ⟨[], [], .nil, .nil, .nil⟩
  | cons t ts ih =>
    obtain ⟨tokens, conditions, hwritten, hclause, hpins⟩ :=
      ih fun u hu => hsuits u (mem_cons_of_mem t hu)
    obtain ⟨first, condition, hfirst, hone, hpin⟩ :=
      @clause_pins py engine chars types t _ hne (hsuits t mem_cons_self)
    exact ⟨_, _, .cons hfirst hwritten, .cons hone hclause, .cons hpin hpins⟩

theorem pinsAll_any {conditions : List Ansi.Condition}
    (h : List.Forall₂ (PinsAll engine types partitions) ts conditions) (row : Text → Option Value) :
    (∃ condition ∈ conditions, condition.eval (engine.compare types) row = some true) ↔
      ∃ t ∈ ts, ∀ c ∈ partitions, row c = (t c).value (types c) := by
  induction h with
  | nil => simp
  | cons hpin _ ih => rw [exists_mem_cons_iff, exists_mem_cons_iff, ih, hpin row]

/-- The clauses of some data rows are read as a condition met by the rows of the table that have the
partition values of one of them. -/
theorem parse_clauses (hne : partitions ≠ []) (hsome : ts ≠ [])
    (hsuits : ∀ t ∈ ts, ∀ c ∈ partitions, (t c).Suits (types c)) :
    ∃ condition, Ansi.parse chars ([' ', 'O', 'R', ' '].intercalate
        (ts.map fun t => clause py partitions (partitions.map t))) = some condition ∧
      ∀ row : Text → Option Value, condition.eval (engine.compare types) row = some true ↔
        ∃ t ∈ ts, ∀ c ∈ partitions, row c = (t c).value (types c) := by
  obtain ⟨tokens, conditions, hwritten, hclause, hpins⟩ :=
    @clauses_pin py engine chars types _ ts hne hsuits
  obtain ⟨t, rest, rfl⟩ := exists_cons_of_ne_nil hsome
  rw [map_cons] at hwritten
  obtain _ | ⟨hfirst, hrest⟩ := hwritten
  obtain _ | ⟨hone, hmany⟩ := hclause
  have hor : Ansi.Written chars ['O', 'R'] [.word ['O', 'R']] := .word (by decide) (by decide)
  have hjoined := hor.joined hfirst hrest
  rw [Ansi.joinedText_eq] at hjoined
  have hcondition :=
    Ansi.conditionOf_disjunction hone.reads (hmany.imp fun _ _ h => h.reads) hone.long
  refine ⟨_, hjoined.parse.trans hcondition, ?_⟩
  intro row
  rw [Ansi.Condition.or_eq_true]
  exact pinsAll_any hpins row

end

end DeltaSwamp.Dynamic
