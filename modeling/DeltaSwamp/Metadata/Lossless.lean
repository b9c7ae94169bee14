import DeltaSwamp.Metadata.Recorded

/-!
# Chains of type changes

`alter_column_type` and `merge_schema` called one after another on one column.
Its values, the direct change, its history and its stored partition values stay
right throughout, but for a partition column changed from float to double.
-/

namespace DeltaSwamp.Metadata

open Arrow (Denoted)

inductive TypeCall where
  | alter (column new : String)
  | merge (data : List ArrowField) (uuid : Int → String)

def TypeCall.event : TypeCall → Event
  | alter column new => .alterColumnType column new
  | merge data uuid => .mergeSchema data uuid

/-- What is followed of a column of a primitive type. -/
structure ColumnView where
  type : String
  history : List Json
  partition : Bool
  deriving DecidableEq

/-- A call, and where the column stands in the table it is made on. -/
structure TypeStep where
  state : TableState
  position : Position
  call : TypeCall

section
variable (py : Python)

/-- The column at a position of a table. -/
def follow? (state : TableState) (p : Position) : Option ColumnView :=
  ((DataType.struct state.schema.fields).columnAt p).map fun c =>
    ⟨c.type, c.history, decide (p.length = 1) && isPartition py state c.name⟩

namespace TypeStep

def before (s : TypeStep) : Option ColumnView := follow? py s.state s.position

def after (s : TypeStep) : Option ColumnView :=
  (advance py s.state s.call.event).bind fun state => follow? py state s.position

/-- The changes of the column's type the call makes. -/
def changes (s : TypeStep) : List (String × String) :=
  match s.call with
  | .alter column new => changesByAlter py s.state column new s.position
  | .merge data _ => changesAmong py s.state s.state.schema.fields "" false s.position data

/-- A partition column of floats is altered to double. -/
def ReparsesFloat (s : TypeStep) : Prop :=
  ∃ column new history, s.call = .alter column new ∧
    target py s.state column = some s.position ∧ normaliseType py new = "double" ∧
    s.before py = some ⟨"float", history, true⟩

end TypeStep

/-- Accepted calls one after another. Between two of them the table may change in any way that
leaves the column's type and history and whether it is a partition column as they are. -/
inductive Chain : ColumnView → List TypeStep → ColumnView → Prop where
  | nil (c : ColumnView) : Chain c [] c
  | cons {c d e : ColumnView} {s : TypeStep} {steps : List TypeStep} :
      s.before py = some c → s.after py = some d → Chain d steps e → Chain c (s :: steps) e

def chainChanges (steps : List TypeStep) : List (String × String) :=
  steps.flatMap fun s => s.changes py

/-- Widening loses nothing between the first and the last type of a column. -/
structure Lossless (reader : PartitionReader) (other : String → List Char → Option Denoted)
    (first last : ColumnView) (changes : List (String × String)) : Prop where
  exact : ∀ v, HasValue py first.type v → HasValue py last.type v
  direct : first.type = last.type ∨ Permitted py first.partition first.type last.type
  linked : Trail (Permitted py first.partition) first.type changes last.type
  recorded : last.history = first.history ++ changes.map historyEntry
  stored : first.partition = true → ∀ text v,
    parseAs py reader other first.type text = some v →
      parseAs py reader other last.type text = some v

end

section
variable {py : Python} {state : TableState} {p : Position} {c d e first last : ColumnView}
  {s : TypeStep} {steps : List TypeStep} {change : Change}

theorem follow?_eq_some_iff : follow? py state p = some c ↔
    ∃ column, (DataType.struct state.schema.fields).columnAt p = some column ∧
      c = ⟨column.type, column.history,
        decide (p.length = 1) && isPartition py state column.name⟩ := by
  rw [follow?, Option.map_eq_some_iff]
  constructor
  · rintro ⟨column, hcolumn, rfl⟩
    exact ⟨column, hcolumn, rfl⟩
  · rintro ⟨column, hcolumn, rfl⟩
    exact ⟨column, hcolumn, rfl⟩

theorem partitionColumns_call {call : TypeCall} (h : act py state call.event = .ok change) :
    (state.apply change).metadata.partitionColumns = state.metadata.partitionColumns := by
  cases call with
  | alter column new =>
    obtain ⟨path, found, -, -, ⟨-, rfl⟩ | ⟨old, -, -, -, rfl⟩⟩ := alterColumnType_cases h
    · rfl
    · rfl
  | merge data uuid =>
    obtain ⟨m, -, ⟨-, -, rfl⟩ | ⟨-, -, -, ⟨-, hm⟩ | ⟨-, highest, -, hm⟩⟩⟩ := mergeSchema_ok h
    · rfl
    · rw [TableState.apply, hm]
      rfl
    · rw [TableState.apply, hm]
      rfl

theorem step_retyped (hbefore : s.before py = some c)
    (hact : act py s.state s.call.event = .ok change) :
    ∃ d, follow? py (s.state.apply change) s.position = some d ∧ d.partition = c.partition ∧
      Trail (TypeChange py c.partition) c.type (s.changes py) d.type ∧
      d.history = c.history ++ (s.changes py).map historyEntry := by
  obtain ⟨state, p, call⟩ := s
  obtain ⟨column, hcolumn, rfl⟩ := follow?_eq_some_iff.mp hbefore
  obtain ⟨column', hcolumn', hretyped⟩ : ∃ d, (state.apply change).schema.columnAt p = some d ∧
      Retyped py (decide (p.length = 1) && isPartition py state column.name) column
        (TypeStep.changes py ⟨state, p, call⟩) d := by
    cases call with
    | alter name new => exact alter_retyped hact (columnAt_fields hcolumn)
    | merge data uuid => exact merge_retyped hact hcolumn
  obtain ⟨i, rest, -, rfl, -, -⟩ := exists_field_of_columnAt hcolumn
  refine ⟨_, follow?_eq_some_iff.mpr ⟨column', columnAt_struct_fields hcolumn', rfl⟩, ?_,
    hretyped.trail, hretyped.history⟩
  simp only [isPartition, partitionColumns_call hact, hretyped.name]

theorem after_eq_some_iff : s.after py = some d ↔
    ∃ change, act py s.state s.call.event = .ok change ∧
      follow? py (s.state.apply change) s.position = some d := by
  unfold TypeStep.after advance
  cases act py s.state s.call.event with
  | error refused => simp
  | ok change => simp

theorem step_changes (hbefore : s.before py = some c) (hafter : s.after py = some d) :
    d.partition = c.partition ∧
      Trail (TypeChange py c.partition) c.type (s.changes py) d.type ∧
      d.history = c.history ++ (s.changes py).map historyEntry := by
  obtain ⟨change, hact, hd⟩ := after_eq_some_iff.mp hafter
  obtain ⟨d', hd', h⟩ := step_retyped hbefore hact
  cases hd.symm.trans hd'
  exact h

theorem chainChanges_cons (py : Python) (s : TypeStep) (steps : List TypeStep) :
    chainChanges py (s :: steps) = s.changes py ++ chainChanges py steps := rfl

/-- Along a chain the history is extended by just the changes, which lead from the first type
to the last. -/
theorem Chain.changes (h : Chain py first steps last) :
    last.partition = first.partition ∧
      Trail (TypeChange py first.partition) first.type (chainChanges py steps) last.type ∧
      last.history = first.history ++ (chainChanges py steps).map historyEntry := by
  induction h with
  | nil c => exact ⟨rfl, .nil _, by simp [chainChanges]⟩
  | cons hbefore hafter _ ih =>
    obtain ⟨hpartition, htrail, hhistory⟩ := step_changes hbefore hafter
    obtain ⟨hpartition', htrail', hhistory'⟩ := ih
    rw [hpartition] at htrail' hpartition'
    rw [chainChanges_cons]
    refine ⟨hpartition', htrail.append htrail', ?_⟩
    rw [hhistory', hhistory, List.map_append, List.append_assoc]

theorem Chain.step (h : Chain py first steps last) (hs : s ∈ steps) :
    ∃ c d, s.before py = some c ∧ s.after py = some d ∧ c.partition = first.partition := by
  induction h with
  | nil c => simp at hs
  | cons hbefore hafter _ ih =>
    obtain rfl | hs := List.mem_cons.mp hs
    · exact ⟨_, _, hbefore, hafter, rfl⟩
    · obtain ⟨c, d, hc, hd, hpartition⟩ := ih hs
      exact ⟨c, d, hc, hd, hpartition.trans (step_changes hbefore hafter).1⟩

theorem target_eq_some {column : String} (h : target py state column = some p) :
    ∃ path found, splitIdentifier py column = .ok path ∧
      find py state.schema.fields path = .ok found ∧ found.position = p := by
  unfold target at h
  split at h
  · rename_i found hfound
    obtain ⟨path, hpath, hfound⟩ := Result.bind_eq_ok_iff.mp hfound
    cases h
    exact ⟨path, found, hpath, hfound, rfl⟩
  · cases h

theorem found_type {path : List String} {found : Found} {column : Column}
    (hfound : find py state.schema.fields path = .ok found)
    (hcolumn : (DataType.struct state.schema.fields).columnAt found.position = some column) :
    found.target.type = .primitive column.type := by
  obtain ⟨f, hf, htype, -⟩ := fieldAt_of_columnAt hcolumn
  cases (find_ok hfound).1.symm.trans hf
  exact htype

theorem changes_of_reparsesFloat (h : s.ReparsesFloat py) :
    s.changes py = [("float", "double")] := by
  obtain ⟨column, new, history, hcall, htarget, hnew, hbefore⟩ := h
  obtain ⟨path, found, hpath, hfound, hposition⟩ := target_eq_some htarget
  obtain ⟨c, hcolumn, hc⟩ := follow?_eq_some_iff.mp hbefore
  rw [← hposition] at hcolumn
  have htype := found_type hfound hcolumn
  rw [show c.type = "float" from (congrArg ColumnView.type hc).symm] at htype
  rw [TypeStep.changes, hcall]
  simp only
  rw [changesByAlter_found hpath hfound, if_pos ⟨hposition, by simp [htype, hnew]⟩]
  simp only [widening, htype, hnew]

theorem reparsesFloat_of_mem (hbefore : s.before py = some c) (hafter : s.after py = some d)
    (hpartition : c.partition = true) {new : String} (h : ("float", new) ∈ s.changes py) :
    s.ReparsesFloat py := by
  obtain ⟨-, htrail, -⟩ := step_changes hbefore hafter
  obtain ⟨-, -, -, hchange, -⟩ := htrail.split h
  cases eq_double_of_float hchange
  obtain ⟨change, hact, -⟩ := after_eq_some_iff.mp hafter
  obtain ⟨state, p, call⟩ := s
  obtain ⟨column, hcolumn, rfl⟩ := follow?_eq_some_iff.mp hbefore
  cases call with
  | alter name new =>
    obtain ⟨path, found, hpath, hfound, -⟩ := alterColumnType_cases hact
    simp only [TypeStep.changes, changesByAlter_found hpath hfound] at h
    split_ifs at h with hwhere
    · obtain ⟨rfl, -⟩ := hwhere
      have htype := found_type hfound hcolumn
      simp only [widening, htype, List.mem_singleton, Prod.mk.injEq] at h
      refine ⟨name, new, column.history, rfl, target_eq hpath hfound, h.2.symm, ?_⟩
      rw [hbefore, ← h.1]
      simpa using hpartition
    · simp at h
  | merge data uuid =>
    obtain ⟨m, hm, -⟩ := mergeSchema_ok hact
    simp only [TypeStep.changes, changes_of_partition hm hcolumn hpartition] at h
    simp at h

variable {reader : PartitionReader} {other : String → List Char → Option Denoted}

theorem Chain.hasValue (h : Chain py first steps last) {v : Denoted}
    (hv : HasValue py first.type v) : HasValue py last.type v := by
  obtain ⟨-, htrail, -⟩ := h.changes
  exact htrail.carry (P := fun name => HasValue py name v)
    (fun _ _ _ hstep hvalue => hstep.hasValue hvalue) hv

theorem Chain.direct (h : Chain py first steps last) :
    first.type = last.type ∨ Permitted py first.partition first.type last.type := by
  obtain ⟨-, htrail, -⟩ := h.changes
  exact (direct_of_trail htrail).imp id TypeChange.permitted

theorem Chain.stored (hspace : py.digit ' ' = none) (h : Chain py first steps last)
    (hsteps : ∀ s ∈ steps, ¬ s.ReparsesFloat py) (hpartition : first.partition = true)
    {text : List Char} {v : Denoted} (hv : parseAs py reader other first.type text = some v) :
    parseAs py reader other last.type text = some v := by
  obtain ⟨-, htrail, -⟩ := h.changes
  refine htrail.carry (P := fun name => parseAs py reader other name text = some v) ?_ hv
  intro old new hmem hstep hparsed
  rw [hpartition] at hstep
  refine hstep.parseAs hspace ?_ hparsed
  rintro rfl
  obtain ⟨s, hs, hmem⟩ := List.mem_flatMap.mp hmem
  obtain ⟨c, d, hbefore, hafter, hsame⟩ := h.step hs
  exact hsteps s hs (reparsesFloat_of_mem hbefore hafter (hsame.trans hpartition) hmem)

/-- A chain in which a partition column is altered from float to double starts at float and ends
at double. -/
theorem Chain.of_reparsesFloat (h : Chain py first steps last) (hs : s ∈ steps)
    (hfloat : s.ReparsesFloat py) :
    first.type = "float" ∧ last.type = "double" ∧ first.partition = true := by
  obtain ⟨-, htrail, -⟩ := h.changes
  obtain ⟨c, d, hbefore, -, hpartition⟩ := h.step hs
  obtain ⟨-, -, history, -, -, -, hbefore'⟩ := id hfloat
  cases hbefore.symm.trans hbefore'
  have hmem : ("float", "double") ∈ chainChanges py steps := by
    apply List.mem_flatMap.mpr
    exact ⟨s, hs, by rw [changes_of_reparsesFloat hfloat]; simp⟩
  obtain ⟨before, after, hfirst, -, hlast⟩ := htrail.split hmem
  exact ⟨hfirst.eq_of_no_target fun _ => no_change_to_float,
    hlast.eq_of_no_source fun _ => no_change_of_double, hpartition.symm⟩

/-- A chain of accepted type changes is lossless if and only if none of them is that of a
partition column from float to double. -/
theorem chain_lossless_iff (hspace : py.digit ' ' = none) (h : Chain py first steps last) :
    Lossless py reader other first last (chainChanges py steps) ↔
      ∀ s ∈ steps, ¬ s.ReparsesFloat py := by
  obtain ⟨-, htrail, hhistory⟩ := h.changes
  constructor
  · intro hlossless s hs hfloat
    obtain ⟨hfirst, hlast, hpartition⟩ := h.of_reparsesFloat hs hfloat
    obtain ⟨v, hv, hne⟩ := reader.tenth_reparsed
    have hstored := hlossless.stored hpartition "0.1".toList v
    rw [hfirst, hlast] at hstored
    exact hne (hstored hv)
  · intro hsteps
    exact ⟨fun v hv => h.hasValue hv, h.direct, htrail.mono fun _ _ h => h.permitted, hhistory,
      fun hpartition text v hv => h.stored hspace hsteps hpartition hv⟩

end

/-- Numbers in text, of a number's type. -/
def parseNumeral : ColumnType → List Char → Option Denoted
  | .integral i, text => (Numeral.readWhole text).bind fun n =>
    if -2 ^ (i.bits - 1) ≤ n ∧ n < 2 ^ (i.bits - 1) then some (.number n) else none
  | .float, text => (Numeral.read text).map fun n => Arrow.FloatFormat.single.nearest n.value
  | .double, text => (Numeral.read text).map fun n => Arrow.FloatFormat.double.nearest n.value
  | .decimal p s, text => (Numeral.read text).bind fun n =>
    if n.scale = s ∧ |n.digits| < 10 ^ p then some (.number n.value) else none
  | .date, _ | .timestampNtz, _ => none

def numeralReader : PartitionReader where
  parse := parseNumeral
  integral i text v := by
    simp only [parseNumeral, Option.bind_eq_some_iff, Option.ite_none_right_eq_some,
      Option.some.injEq]
    simp only [eq_comm]
  decimal p s text v := by
    simp only [parseNumeral, Option.bind_eq_some_iff, Option.ite_none_right_eq_some,
      Option.some.injEq]
    simp only [eq_comm]
  float text n h := by rw [parseNumeral, h, Option.map_some]
  double text n h := by rw [parseNumeral, h, Option.map_some]

/-- A table with type widening, partitioned by a column whose type was changed before. -/
def partitioned (type : String) (changed : List (String × String)) : TableState where
  version := 0
  protocol := ⟨3, 7, some ["typeWidening"], some ["typeWidening"]⟩
  metadata := {
    schema := .struct [⟨"p", .primitive type, true,
      [(typeChanges, .arr (changed.map historyEntry))]⟩,
      ⟨"v", .primitive "string", true, []⟩]
    partitionColumns := ["p"]
    configuration := [("delta.enableTypeWidening", "true")] }
  clustering := none

def alterPartition (type : String) (changed : List (String × String)) (new : String) : TypeStep :=
  ⟨partitioned type changed, [.field 0], .alter "p" new⟩

/-- A partition column of integers altered twice. -/
def integersAltered : List TypeStep :=
  [alterPartition "integer" [] "BIGINT", alterPartition "long" [("integer", "long")] "DECIMAL(20)"]

theorem integers_kept : Lossless ascii numeralReader (fun _ _ => none) ⟨"integer", [], true⟩
    ⟨"decimal(20,0)", [historyEntry ("integer", "long"), historyEntry ("long", "decimal(20,0)")],
      true⟩ (chainChanges ascii integersAltered) := by
  have hbefore : ∀ s ∈ integersAltered, (s.before ascii).all (·.type ≠ "float") = true := by
    decide +kernel
  refine (chain_lossless_iff (by decide) ?_).mpr ?_
  · exact .cons (d := ⟨"long", [historyEntry ("integer", "long")], true⟩) (by decide +kernel)
      (by decide +kernel) (.cons (by decide +kernel) (by decide +kernel) (.nil _))
  · rintro s hs ⟨column, new, history, -, -, -, hfloat⟩
    have hne := hbefore s hs
    rw [hfloat] at hne
    cases hne

/-- A partition column of floats altered to hold doubles: `0.1` in the log is another number. -/
theorem floats_reparsed :
    Chain ascii ⟨"float", [], true⟩ [alterPartition "float" [] "double"]
        ⟨"double", [historyEntry ("float", "double")], true⟩ ∧
      ¬ Lossless ascii numeralReader (fun _ _ => none) ⟨"float", [], true⟩
        ⟨"double", [historyEntry ("float", "double")], true⟩
        (chainChanges ascii [alterPartition "float" [] "double"]) := by
  constructor
  · exact .cons (by decide +kernel) (by decide +kernel) (.nil _)
  · intro hlossless
    obtain ⟨v, hv, hne⟩ := numeralReader.tenth_reparsed
    exact hne (hlossless.stored rfl "0.1".toList v hv)

end DeltaSwamp.Metadata
