import DeltaSwamp.Json
import DeltaSwamp.Predicate.Named

/-!
# Counting rows from the log

`metadata_count` and `_dv_cardinalities` of `engine/kernel.py`: the rows of the files a
snapshot lists, counted from what the log records of them, and the rows a scan returns.
-/

namespace DeltaSwamp.Counting

open List

open Predicate (Env Row Schema Ty Prim Value Node Expr PredicateError Builder.build columnsOf truth)

/-- The types whose string form converts losslessly. -/
def countable : Ty → Option Prim
  | .prim t =>
    if t = .text .string ∨ t.isInteger ∨ t.isDate ∨ t = .boolean then some t else none
  | _ => none

/-- What reads the strings a log keeps partition values as. -/
structure PartitionStrings where
  /-- the value of a type that a string, if not empty, is for a scan -/
  denote : Prim → Text → Option Value
  /-- Arrow's cast of a string to a type, `none` where it raises -/
  cast : Prim → Text → Option Value
  cast_typed : ∀ t s v, cast t s = some v → v.hasType t = true
  cast_text : ∀ s, cast (.text .string) s = some (.text s)
  cast_nil : ∀ t, countable (.prim t) = some t → t ≠ .text .string → cast t [] = none
  agree : ∀ t s v w, s ≠ [] → cast t s = some v → denote t s = some w → v = w

/-- A scan reads an empty string as NULL. -/
def PartitionStrings.value (strings : PartitionStrings) (t : Prim) : Option Text → Option Value
  | none => none
  | some s => if s = [] then none else strings.denote t s

/-- A snapshot's columns. -/
structure Layout (env : Env) where
  schema : Schema
  /-- `delta.columnMapping.physicalName` of a column -/
  mapped : Text → Option Text
  partitionColumns : List Text
  distinct : (schema.map fun f => env.lower f.1).Nodup
  known : ∀ name ∈ partitionColumns, ∃ type, (name, type) ∈ schema

section
variable {env : Env} (strings : PartitionStrings) (layout : Layout env)

/-- The name a log keeps a column's values under. -/
def Layout.physical (name : Text) : Text :=
  match layout.mapped name with
  | some physical => if physical = [] then name else physical
  | none => name

/-- The string a file's partition values hold for a column. -/
def Layout.raw (values : Dict Text (Option Text)) (name : Text) : Option Text :=
  (values.get (layout.physical name)).join

/-- `_dv_cardinalities`, of one descriptor, in which the cardinality is an integer -/
def dvCardinality : Option Json → ℤ
  | none => 0
  | some descriptor =>
    match descriptor.get "cardinality" with
    | some (.int n) => n
    | _ => 0

/-- A data file, with the rows its deletion vector leaves and the number of those it hides. What the
log records of it is exact. -/
structure DataFile where
  numRecords : Option ℕ
  deletionVector : Option Json
  partitionValues : Dict Text (Option Text)
  rows : List (Row env.lower layout.schema)
  hidden : ℕ
  recorded : ∀ n, numRecords = some n → n = rows.length + hidden ∧ n < 2 ^ 63
  cardinality : dvCardinality deletionVector = hidden
  readable : ∀ name ∈ layout.partitionColumns, ∀ t, (name, Ty.prim t) ∈ layout.schema →
    ∀ s, layout.raw partitionValues name = some s → s ≠ [] → ∃ v, strings.denote t s = some v
  valued : ∀ row ∈ rows, ∀ name ∈ layout.partitionColumns, ∀ t, (name, Ty.prim t) ∈ layout.schema →
    row.get [name] = strings.value t (layout.raw partitionValues name)

variable {strings layout}

def DataFile.raw (file : DataFile strings layout) (name : Text) : Option Text :=
  layout.raw file.partitionValues name

/-- The records of a file less what its deletion vector removes. -/
def DataFile.live (file : DataFile strings layout) : ℤ :=
  file.numRecords.getD 0 - dvCardinality file.deletionVector

variable (layout)

def Layout.byLower : Dict Text Text :=
  Dict.update [] (layout.partitionColumns.map fun name => (env.lower name, name))

def Layout.typeOf (name : Text) : Option Ty :=
  (layout.schema.find? fun f => f.1 = name).map Prod.snd

/-- The partition column a path names. -/
def Layout.spelled : List Text → Option Text
  | [part] => layout.byLower.get (env.lower part)
  | _ => none

/-- The partition column a path names, of a type that can be counted by. -/
def Layout.named (path : List Text) : Option (Text × Prim) := do
  let name ← layout.spelled path
  let type ← countable (← layout.typeOf name)
  return (name, type)

structure Partitions where
  entries : Dict Text Prim
  nodup : (entries.map Prod.fst).Nodup

/-- The partition columns a predicate names, where it names no others. -/
def Layout.partitions (node : Node) : Option Partitions :=
  ((columnsOf node).mapM fun c => layout.named c.path).map fun named =>
    ⟨Dict.update [] named, Dict.nodup_update (by simp) named⟩

variable {layout}

/-- A column of the table of files: a value for each, of the column's type. -/
structure FileColumn (strings : PartitionStrings) (layout : Layout env) where
  type : Prim
  value : DataFile strings layout → Option Value
  typed : ∀ file v, value file = some v → v.hasType type = true

def castColumn (name : Text) (t : Prim) : FileColumn strings layout where
  type := t
  value file := (file.raw name).bind (strings.cast t)
  typed file v h := by
    obtain ⟨s, -, hs⟩ := Option.bind_eq_some_iff.mp h
    exact strings.cast_typed t s v hs

def liveRows : Text := ['_', '_', 'l', 'i', 'v', 'e', '_', 'r', 'o', 'w', 's']

theorem DataFile.live_eq {file : DataFile strings layout} (h : file.numRecords.isSome = true) :
    file.live = file.rows.length := by
  obtain ⟨n, hn⟩ := Option.isSome_iff_exists.mp h
  have hrecorded := (file.recorded n hn).1
  rw [DataFile.live, file.cardinality, hn, Option.getD_some]
  omega

theorem live_int64 {file : DataFile strings layout} (h : file.numRecords.isSome = true) :
    (Value.num file.live).hasType .int64 = true := by
  obtain ⟨n, hn⟩ := Option.isSome_iff_exists.mp h
  obtain ⟨hrecorded, hbound⟩ := file.recorded n hn
  have hlive := DataFile.live_eq h
  have hrange : Value.inRange true 64 file.live = true := by
    rw [Value.inRange, if_pos rfl, Bool.and_eq_true]
    exact ⟨decide_eq_true (by omega), decide_eq_true (by omega)⟩
  rw [Value.hasType, Rat.num_intCast, hrange]
  simp

def liveColumn : FileColumn strings layout where
  type := .int64
  value file := if file.numRecords.isSome then some (.num file.live) else none
  typed file v h := by
    split_ifs at h with hsome
    cases h
    exact live_int64 hsome

/-- The table of files: the named columns, and then the live rows, in place of a column of that
name. -/
def fileTable (strings : PartitionStrings) (layout : Layout env) (partitions : Partitions) :
    Dict Text (FileColumn strings layout) :=
  Dict.set (partitions.entries.map fun entry => (entry.1, castColumn entry.1 entry.2)) liveRows
    liveColumn

theorem fileTable_nodup (partitions : Partitions) :
    ((fileTable strings layout partitions).map Prod.fst).Nodup := by
  apply Dict.nodup_set
  rw [map_map]
  exact partitions.nodup

def fileSchema (strings : PartitionStrings) (layout : Layout env) (partitions : Partitions) :
    Schema :=
  (fileTable strings layout partitions).map fun entry => (entry.1, Ty.prim entry.2.type)

theorem fileSchema_prim (partitions : Partitions) :
    ∀ f ∈ fileSchema strings layout partitions, ∃ t, f.2 = Ty.prim t := by
  intro f hf
  obtain ⟨entry, -, rfl⟩ := mem_map.mp hf
  exact ⟨_, rfl⟩

theorem mem_of_resolvePath {lower : Text → Text} {fields : Schema}
    (hprim : ∀ f ∈ fields, ∃ t, f.2 = Ty.prim t) {path spelled : List Text} {type : Ty}
    (h : Predicate.resolvePath lower fields path = .ok (some (spelled, type))) :
    ∃ name, spelled = [name] ∧ (name, type) ∈ fields := by
  cases path with
  | nil => cases h
  | cons part rest =>
    rw [Predicate.resolvePath] at h
    split at h
    · cases h
    · rename_i name found hmatching
      have hmem : (name, found) ∈ fields := by
        have hfound : (name, found) ∈ Predicate.matching lower fields part := by
          rw [hmatching]
          exact mem_singleton_self _
        unfold Predicate.matching at hfound
        dsimp only at hfound
        split_ifs at hfound
        · exact mem_of_mem_filter hfound
        · exact mem_of_mem_filter hfound
      obtain ⟨t, ht⟩ := hprim _ hmem
      split at h
      · cases h
        exact ⟨name, rfl, hmem⟩
      · cases ht
      · cases h
    · cases h

/-- A file's row in the table of files. -/
def fileRow (partitions : Partitions) (file : DataFile strings layout) :
    Row env.lower (fileSchema strings layout partitions) where
  get path :=
    match path with
    | [name] => ((fileTable strings layout partitions).get name).bind fun c => c.value file
    | _ => none
  typed path spelled t v hpath hv := by
    split at hv
    · rename_i name
      obtain ⟨c, hc, hvalue⟩ := Option.bind_eq_some_iff.mp hv
      obtain ⟨name', hname, hmem⟩ := mem_of_resolvePath (fileSchema_prim partitions) hpath
      cases hname
      obtain ⟨entry, hentry, heq⟩ := mem_map.mp hmem
      cases heq
      have hget := Dict.get_of_mem (fileTable_nodup partitions) hentry
      rw [hget] at hc
      cases hc
      exact entry.2.typed file v hvalue
    · cases hv

/-- Whether Arrow casts every string of the named columns. -/
def castable (partitions : Partitions) (listed : List (DataFile strings layout)) : Bool :=
  listed.all fun file => partitions.entries.all fun entry =>
    (file.raw entry.1).all fun s => (strings.cast entry.2 s).isSome

/-- `metadata_count`, of the files listed for the predicate -/
def metadataCount (listed : List (DataFile strings layout)) (predicate : Option Node) :
    Except PredicateError (Option ℤ) :=
  match predicate with
  | none =>
    if listed.all fun file => file.numRecords.isSome then
      .ok (some (listed.map DataFile.live).sum)
    else .ok none
  | some node =>
    match layout.partitions node with
    | none => .ok none
    | some partitions =>
      if listed.all fun file => file.numRecords.isSome then
        if partitions.entries = [] then .ok (some (listed.map DataFile.live).sum)
        else if castable partitions listed then do
          let e ← Builder.build env (fileSchema strings layout partitions) node
          let kept := listed.filter fun file => e.eval env (fileRow partitions file).get = some true
          return some (kept.map DataFile.live).sum
        else .ok none
      else .ok none

/-- The number of rows of a scan with a predicate, over the files listed for it -/
def scan (listed : List (DataFile strings layout)) (predicate : Option Node) :
    Except PredicateError ℕ :=
  match predicate with
  | none => .ok (listed.flatMap DataFile.rows).length
  | some node => do
    let e ← Builder.build env layout.schema node
    let kept := (listed.flatMap DataFile.rows).filter fun row => e.eval env row.get = some true
    return kept.length

/-- Whether a row is one a predicate asks for. -/
def Selects (predicate : Option Node) (row : Row env.lower layout.schema) : Prop :=
  ∀ node ∈ predicate, truth env layout.schema row node = some true

/-- What lists files for a predicate, and leaves out none with a row the predicate asks for. -/
structure Skipping (strings : PartitionStrings) (layout : Layout env)
    (predicate : Option Node) where
  keeps : DataFile strings layout → Bool
  sound : ∀ file, keeps file = false → ∀ row ∈ file.rows, ¬ Selects predicate row

end

open Predicate (Env Row Schema Ty Prim Value Node Column Builder.build columnsOf truth resolve
  SameColumn SameValue)

section
variable {env : Env} {strings : PartitionStrings} {layout : Layout env}

variable {name : Text}

theorem mem_of_byLower {key : Text} (h : layout.byLower.get key = some name) :
    name ∈ layout.partitionColumns ∧ env.lower name = key := by
  obtain hmem | hnil := Dict.mem_update (Dict.mem_of_get h)
  · obtain ⟨name', hname, heq⟩ := mem_map.mp hmem
    cases heq
    exact ⟨hname, rfl⟩
  · cases hnil

variable {t : Prim}

theorem countable_eq {type : Ty} (h : countable type = some t) :
    type = .prim t ∧ countable (.prim t) = some t := by
  unfold countable at h
  split at h
  · rename_i t'
    split_ifs at h with hcount
    cases h
    exact ⟨rfl, by rw [countable, if_pos hcount]⟩
  · cases h

/-- What is known of a partition column that can be counted by. -/
structure Named (layout : Layout env) (name : Text) (t : Prim) : Prop where
  partition : name ∈ layout.partitionColumns
  typed : (name, Ty.prim t) ∈ layout.schema
  countable : countable (.prim t) = some t

theorem spelled_spec {path : List Text} (h : layout.spelled path = some name) :
    ∃ part, path = [part] ∧ env.lower part = env.lower name ∧ name ∈ layout.partitionColumns := by
  unfold Layout.spelled at h
  split at h
  · obtain ⟨hmem, hlower⟩ := mem_of_byLower h
    exact ⟨_, rfl, hlower.symm, hmem⟩
  · cases h

theorem named_spec {path : List Text} (h : layout.named path = some (name, t)) :
    ∃ part, path = [part] ∧ env.lower part = env.lower name ∧ Named layout name t := by
  unfold Layout.named at h
  simp only [Option.bind_eq_bind, Option.bind_eq_some_iff, Option.pure_def, Option.some.injEq,
    Prod.mk.injEq] at h
  obtain ⟨name', hname, type, htype, t', hcount, rfl, rfl⟩ := h
  obtain ⟨part, hpath, hlower, hmem⟩ := spelled_spec hname
  obtain ⟨rfl, hcount⟩ := countable_eq hcount
  obtain ⟨f, hf, heq⟩ := Option.map_eq_some_iff.mp htype
  have hspelled := List.find?_some hf
  rw [decide_eq_true_eq] at hspelled
  refine ⟨part, hpath, hlower, hmem, ?_, hcount⟩
  rw [← hspelled, ← heq]
  exact mem_of_find?_eq_some hf

theorem mapM_spec {α β : Type} {f : α → Option β} {xs : List α} {ys : List β}
    (h : xs.mapM f = some ys) :
    (∀ x ∈ xs, ∃ y ∈ ys, f x = some y) ∧ ∀ y ∈ ys, ∃ x ∈ xs, f x = some y := by
  induction xs generalizing ys with
  | nil =>
    rw [mapM_nil, Option.pure_def, Option.some.injEq] at h
    simp [← h]
  | cons x xs ih =>
    simp only [mapM_cons, Option.bind_eq_bind, Option.bind_eq_some_iff, Option.pure_def,
      Option.some.injEq] at h
    obtain ⟨y, hy, rest, hrest, rfl⟩ := h
    obtain ⟨hleft, hright⟩ := ih hrest
    refine ⟨?_, ?_⟩
    · rw [forall_mem_cons]
      refine ⟨⟨y, by simp, hy⟩, fun x' hx' => ?_⟩
      obtain ⟨y', hy', heq⟩ := hleft x' hx'
      exact ⟨y', mem_cons_of_mem _ hy', heq⟩
    · rw [forall_mem_cons]
      refine ⟨⟨x, by simp, hy⟩, fun y' hy' => ?_⟩
      obtain ⟨x', hx', heq⟩ := hright y' hy'
      exact ⟨x', mem_cons_of_mem _ hx', heq⟩

theorem mem_keys_update {κ β : Type} [DecidableEq κ] {d entries : Dict κ β} {k : κ}
    (h : k ∈ entries.map Prod.fst ∨ k ∈ d.map Prod.fst) : k ∈ (d.update entries).map Prod.fst := by
  induction entries generalizing d with
  | nil => exact h.resolve_left (by simp)
  | cons e entries ih =>
    apply ih
    rw [map_cons, mem_cons, or_assoc] at h
    obtain rfl | h | h := h
    · exact Or.inr ((Dict.mem_keys_set d e.1 e.2 _).mpr (Or.inl rfl))
    · exact Or.inl h
    · exact Or.inr ((Dict.mem_keys_set d e.1 e.2 _).mpr (Or.inr h))

/-- The columns a predicate names, where it names no others. -/
structure NamedBy (layout : Layout env) (node : Node) (partitions : Partitions) : Prop where
  entry : ∀ entry ∈ partitions.entries, Named layout entry.1 entry.2
  column : ∀ c ∈ columnsOf node, ∃ part name t, c = ⟨[part]⟩ ∧ env.lower part = env.lower name ∧
    partitions.entries.get name = some t
  empty : partitions.entries = [] → columnsOf node = []

theorem partitions_spec {node : Node} {partitions : Partitions}
    (h : layout.partitions node = some partitions) : NamedBy layout node partitions := by
  obtain ⟨named, hnamed, rfl⟩ := Option.map_eq_some_iff.mp h
  obtain ⟨hleft, hright⟩ := mapM_spec hnamed
  have hentry : ∀ entry ∈ Dict.update [] named, Named layout entry.1 entry.2 := by
    intro entry hmem
    obtain hmem | hnil := Dict.mem_update hmem
    · obtain ⟨c, -, hc⟩ := hright entry hmem
      obtain ⟨-, -, -, hspec⟩ := named_spec hc
      exact hspec
    · cases hnil
  have hcolumn : ∀ c ∈ columnsOf node, ∃ part name t, c = ⟨[part]⟩ ∧
      env.lower part = env.lower name ∧ Dict.get (Dict.update [] named) name = some t := by
    intro c hc
    obtain ⟨⟨name, t⟩, hmem, hnamed⟩ := hleft c hc
    obtain ⟨part, hpath, hlower, hspec⟩ := named_spec hnamed
    have hkey : name ∈ (Dict.update [] named).map Prod.fst :=
      mem_keys_update (Or.inl (mem_map.mpr ⟨_, hmem, rfl⟩))
    obtain ⟨⟨name', t'⟩, hentry', rfl⟩ := mem_map.mp hkey
    refine ⟨part, name', t', by rw [← hpath], hlower, ?_⟩
    exact Dict.get_of_mem (Dict.nodup_update (by simp) named) hentry'
  refine ⟨hentry, hcolumn, fun hnil => ?_⟩
  rw [eq_nil_iff_forall_not_mem]
  intro c hc
  obtain ⟨part, name, t, -, -, hget⟩ := hcolumn c hc
  dsimp only at hnil
  rw [hnil] at hget
  cases hget

/-- Whether a column of the predicate is called what the live rows are, up to case. -/
def collides (env : Env) (partitions : Partitions) : Bool :=
  partitions.entries.any fun entry => env.lower entry.1 = env.lower liveRows

/-- Whether a file has an empty string in a STRING column of the predicate. -/
def blank (partitions : Partitions) (file : DataFile strings layout) : Bool :=
  partitions.entries.any fun entry => entry.2 = .text .string ∧ file.raw entry.1 = some []

variable {node : Node} {partitions : Partitions}

theorem clear_name (hclear : collides env partitions = false)
    (hmem : (name, t) ∈ partitions.entries) : env.lower name ≠ env.lower liveRows := by
  unfold collides at hclear
  rw [any_eq_false] at hclear
  simpa using hclear _ hmem

theorem fileTable_get (hclear : collides env partitions = false)
    (hget : partitions.entries.get name = some t) :
    (fileTable strings layout partitions).get name = some (castColumn name t) := by
  have hmem := Dict.mem_of_get hget
  have hname : name ≠ liveRows := fun heq => clear_name hclear hmem (by rw [heq])
  rw [fileTable, Dict.get_set, if_neg hname]
  refine Dict.get_of_mem ?_ (mem_map.mpr ⟨(name, t), hmem, rfl⟩)
  rw [map_map]
  exact partitions.nodup

theorem fileSchema_distinct (hnamed : NamedBy layout node partitions)
    (hclear : collides env partitions = false) :
    ((fileSchema strings layout partitions).map fun f => env.lower f.1).Nodup := by
  have hkeys : (fileSchema strings layout partitions).map (fun f => env.lower f.1) =
      ((fileTable strings layout partitions).map Prod.fst).map env.lower := by
    rw [fileSchema, map_map, map_map]
    rfl
  have hentry : ∀ x ∈ (fileTable strings layout partitions).map Prod.fst,
      x = liveRows ∨ ∃ t, (x, t) ∈ partitions.entries := by
    intro x hx
    rw [fileTable, Dict.mem_keys_set, map_map] at hx
    obtain rfl | hx := hx
    · exact Or.inl rfl
    · obtain ⟨⟨name, t⟩, hmem, rfl⟩ := mem_map.mp hx
      exact Or.inr ⟨t, hmem⟩
  rw [hkeys]
  refine List.Nodup.map_on ?_ (fileTable_nodup partitions)
  intro x hx y hy hlower
  obtain rfl | ⟨t, hx⟩ := hentry x hx
  · obtain rfl | ⟨t, hy⟩ := hentry y hy
    · rfl
    · exact absurd hlower.symm (clear_name hclear hy)
  · obtain rfl | ⟨t', hy⟩ := hentry y hy
    · exact absurd hlower (clear_name hclear hx)
    · have hsame := inj_on_of_nodup_map layout.distinct (hnamed.entry _ hx).typed
        (hnamed.entry _ hy).typed hlower
      exact congrArg Prod.fst hsame

theorem fileSchema_resolves (strings : PartitionStrings) (hnamed : NamedBy layout node partitions)
    (hclear : collides env partitions = false) {c : Column} (hc : c ∈ columnsOf node) :
    ∃ name t, partitions.entries.get name = some t ∧
      resolve env (fileSchema strings layout partitions) c = .ok ([name], .prim t) ∧
      resolve env layout.schema c = .ok ([name], .prim t) := by
  obtain ⟨part, name, t, rfl, hlower, hget⟩ := hnamed.column c hc
  have hmem : (name, Ty.prim t) ∈ fileSchema strings layout partitions :=
    mem_map.mpr ⟨_, Dict.mem_of_get (fileTable_get hclear hget), rfl⟩
  exact ⟨name, t, hget,
    Predicate.resolve_unique (fileSchema_distinct hnamed hclear) hmem hlower,
    Predicate.resolve_unique layout.distinct (hnamed.entry _ (Dict.mem_of_get hget)).typed hlower⟩

theorem fileSchema_build (hnamed : NamedBy layout node partitions)
    (hclear : collides env partitions = false) :
    Builder.build env (fileSchema strings layout partitions) node =
      Builder.build env layout.schema node := by
  apply Predicate.Builder.build_congr
  intro c hc
  obtain ⟨name, t, -, hfile, hsnapshot⟩ := fileSchema_resolves strings hnamed hclear hc
  exact hfile.trans hsnapshot.symm

variable {file : DataFile strings layout}

/-- A string that Arrow casts, and that is no empty one of a STRING column, is the scan's value. -/
theorem cast_value (hnamed : Named layout name t)
    (hblank : ¬ (t = .text .string ∧ file.raw name = some []))
    (hcast : ∀ s ∈ file.raw name, (strings.cast t s).isSome = true) :
    (file.raw name).bind (strings.cast t) = strings.value t (file.raw name) := by
  cases hraw : file.raw name with
  | none => rfl
  | some s =>
    obtain ⟨v, hv⟩ := Option.isSome_iff_exists.mp (hcast s hraw)
    have hs : s ≠ [] := by
      rintro rfl
      have ht : t ≠ .text .string := fun ht => hblank ⟨ht, hraw⟩
      rw [strings.cast_nil t hnamed.countable ht] at hv
      cases hv
    obtain ⟨w, hw⟩ := file.readable name hnamed.partition t hnamed.typed s hraw hs
    rw [Option.bind_some, hv, PartitionStrings.value, if_neg hs, hw,
      strings.agree t s v w hs hv hw]

theorem fileRow_value (hnamed : NamedBy layout node partitions)
    (hclear : collides env partitions = false) (hblank : blank partitions file = false)
    (hcast : ∀ entry ∈ partitions.entries, ∀ s ∈ file.raw entry.1,
      (strings.cast entry.2 s).isSome = true) {row : Row env.lower layout.schema}
    (hrow : row ∈ file.rows) {c : Column} (hc : c ∈ columnsOf node) :
    SameValue (fileRow partitions file) row c := by
  obtain ⟨name, t, hget, hfile, hsnapshot⟩ := fileSchema_resolves strings hnamed hclear hc
  have hmem := Dict.mem_of_get hget
  have hspec := hnamed.entry _ hmem
  refine ⟨hfile.trans hsnapshot.symm, ?_⟩
  intro path type hresolve
  rw [hfile] at hresolve
  cases hresolve
  unfold blank at hblank
  rw [any_eq_false] at hblank
  have hvalue : (fileRow partitions file).get [name] = (file.raw name).bind (strings.cast t) := by
    change ((fileTable strings layout partitions).get name).bind (fun c => c.value file) = _
    rw [fileTable_get hclear hget]
    rfl
  rw [hvalue, file.valued row hrow name hspec.partition t hspec.typed]
  exact cast_value hspec (by simpa using hblank _ hmem) (hcast _ hmem)

theorem rows_truth (hnamed : NamedBy layout node partitions)
    {row row' : Row env.lower layout.schema} (hrow : row ∈ file.rows) (hrow' : row' ∈ file.rows) :
    truth env layout.schema row node = truth env layout.schema row' node := by
  apply Predicate.truth_congr
  intro c hc
  refine ⟨rfl, ?_⟩
  intro path type hresolve
  obtain ⟨part, name, t, rfl, hlower, hget⟩ := hnamed.column c hc
  have hspec := hnamed.entry _ (Dict.mem_of_get hget)
  rw [Predicate.resolve_unique layout.distinct hspec.typed hlower] at hresolve
  cases hresolve
  rw [file.valued row hrow name hspec.partition t hspec.typed,
    file.valued row' hrow' name hspec.partition t hspec.typed]

end

end DeltaSwamp.Counting
