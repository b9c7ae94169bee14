import DeltaSwamp.Assoc
import DeltaSwamp.Json
import DeltaSwamp.Progression
import DeltaSwamp.Result
import DeltaSwamp.Run

/-!
# Reserving identity values

`_identity_spec` and `reserve_identity` in `engine/values.py`: the metadata
change that moves each column's high-water mark past the values a write wants,
and the block of values the change reserves.
-/

namespace DeltaSwamp.Identity

open Progression List

structure Field where
  name : String
  metadata : Fields
  deriving DecidableEq

/-- The top-level columns, no two of one name. -/
structure Schema where
  fields : List Field
  distinct : (fields.map Field.name).Nodup

/-- Python's `int()` on a JSON value; `none` where it raises. -/
structure IntOf where
  read : Json → Option Int
  read_int : ∀ n, read (.int n) = some n

/-- One identity column, as its field metadata declares it. -/
structure IdentitySpec where
  name : String
  start : Int
  step : Int
  highWaterMark : Option Int
  deriving DecidableEq

/-- The first value no writer has generated yet. -/
def IdentitySpec.firstFree (spec : IdentitySpec) : Int :=
  match spec.highWaterMark with
  | none => spec.start
  | some mark => mark + spec.step

def identityStart : String := "delta.identity.start"

def identityStep : String := "delta.identity.step"

def identityHwm : String := "delta.identity.highWaterMark"

section
variable (int : IntOf)

/-- A number of the metadata, if it is there; `none` outside where it cannot be read. -/
def number (metadata : Fields) (key : String) : Option (Option Int) :=
  match metadata.lookup key with
  | none | some .null => some none
  | some value => (int.read value).map some

def identitySpec (name : String) (metadata : Fields) : Option IdentitySpec := do
  let start ← number int metadata identityStart
  let step ← number int metadata identityStep
  let highWaterMark ← number int metadata identityHwm
  some ⟨name, start.getD 1, step.getD 1, highWaterMark⟩

def Field.spec (f : Field) : Option IdentitySpec := identitySpec int f.name f.metadata

/-- What the schema declares of `column`. -/
def Schema.spec (schema : Schema) (column : String) : Option IdentitySpec :=
  (schema.fields.find? fun f => f.name = column).bind (Field.spec int)

theorem identitySpec_insert_mark (name : String) (metadata : Fields) (spec : IdentitySpec)
    (last : Int) (h : identitySpec int name metadata = some spec) :
    identitySpec int name (metadata.insert identityHwm (.int last)) =
      some { spec with highWaterMark := some last } := by
  have hother : ∀ key, key ≠ identityHwm →
      number int (metadata.insert identityHwm (.int last)) key = number int metadata key := by
    intro key hkey
    simp only [number, Fields.lookup_insert, if_neg hkey]
  have hmark : number int (metadata.insert identityHwm (.int last)) identityHwm =
      some (some last) := by
    simp [number, Fields.lookup_insert, int.read_int]
  simp only [identitySpec, Option.bind_eq_bind, Option.bind_eq_some_iff, Option.some.injEq] at h ⊢
  obtain ⟨start, hstart, step, hstep, mark, -, rfl⟩ := h
  refine ⟨start, ?_, step, ?_, some last, hmark, rfl⟩
  · rw [hother _ (by decide), hstart]
  · rw [hother _ (by decide), hstep]

/-- Values `first, first + step, ...`, `count` of them. -/
structure IdentityBlock where
  first : Int
  step : Int
  count : Int
  deriving DecidableEq

/-- The block's value after `k` others. -/
def IdentityBlock.term (block : IdentityBlock) (k : Int) : Int := block.first + k * block.step

def IdentityBlock.last (block : IdentityBlock) : Int := block.term (block.count - 1)

def int64 (n : Int) : Prop := -2 ^ 63 ≤ n ∧ n ≤ 2 ^ 63 - 1

instance (n : Int) : Decidable (int64 n) := inferInstanceAs (Decidable (_ ∧ _))

abbrev Blocks := List (String × IdentityBlock)

/-- `counts` of `reserve_identity`: a column's new values, 0 where it is not there. -/
abbrev Counts := List (String × Int)

def Counts.of (counts : Counts) (column : String) : Int := (counts.lookup column).getD 0

inductive ReserveError where
  /-- `InvalidArgumentError`. -/
  | invalidArgument (message : String)
  /-- What `int()` raises. -/
  | unreadable
  deriving DecidableEq

def rangeError (name : String) (count : Int) : ReserveError :=
  .invalidArgument (s!"identity column {name} cannot take {count} more values: they would pass " ++
    "the range of a BIGINT")

def missingError (missing : List String) : ReserveError :=
  let names := String.intercalate ", " missing
  .invalidArgument s!"the table has no identity column {names}"

/-- One field of the loop: the field after it and the block it reserves, if any. -/
def reserveField (counts : Counts) (f : Field) :
    Except ReserveError (Field × Option IdentityBlock) :=
  let count := counts.of f.name
  if count ≤ 0 then .ok (f, none)
  else
    match f.spec int with
    | none => .error .unreadable
    | some spec =>
      let first := spec.firstFree
      let last := first + spec.step * (count - 1)
      if int64 first ∧ int64 last then
        .ok ({ f with metadata := f.metadata.insert identityHwm (.int last) },
          some ⟨first, spec.step, count⟩)
      else .error (rangeError f.name count)

variable {counts : Counts} {f : Field}

theorem reserveField_name {r : Field × Option IdentityBlock}
    (h : reserveField int counts f = .ok r) :
    r.1.name = f.name := by
  simp only [reserveField] at h
  split_ifs at h with hcount
  · cases h
    rfl
  · split at h
    · cases h
    · split_ifs at h
      cases h
      rfl

def blocksOf (reserved : List (Field × Option IdentityBlock)) : Blocks :=
  Assoc.present (reserved.map fun r => (r.1.name, r.2))

def missing (schema : Schema) (counts : Counts) : List String :=
  ((counts.map Prod.fst).filter fun c => c ∉ schema.fields.map Field.name).dedup.mergeSort
    fun a b => decide (a ≤ b)

/-- The schema the change writes and the blocks it reserves. -/
def reserveIdentity (schema : Schema) (counts : Counts) : Except ReserveError (Schema × Blocks) :=
  match h : schema.fields.mapM (reserveField int counts) with
  | .error e => .error e
  | .ok reserved =>
    if missing schema counts ≠ [] then .error (missingError (missing schema counts))
    else
      have hnames : (reserved.map Prod.fst).map Field.name = schema.fields.map Field.name := by
        rw [map_map]
        exact Result.map_eq_of_mapM_ok (fun f r hr => reserveField_name int hr) h
      .ok (⟨reserved.map Prod.fst, hnames ▸ schema.distinct⟩, blocksOf reserved)

/-- A block reserved over `spec`: it starts at the first free value, all of it
is in range, and its last value is the mark left. -/
structure Reserves (spec : IdentitySpec) (block : IdentityBlock) (after : IdentitySpec) :
    Prop where
  first : block.first = spec.firstFree
  step : block.step = spec.step
  count : 0 < block.count
  firstFits : int64 block.first
  lastFits : int64 block.last
  after : after = { spec with highWaterMark := some block.last }

theorem reserveField_none {g : Field} (h : reserveField int counts f = .ok (g, none)) : g = f := by
  simp only [reserveField] at h
  split_ifs at h with hcount
  · cases h
    rfl
  · split at h
    · cases h
    · split_ifs at h
      cases h

theorem reserveField_some {g : Field} {block : IdentityBlock}
    (h : reserveField int counts f = .ok (g, some block)) :
    ∃ spec after, f.spec int = some spec ∧ g.spec int = some after ∧
      Reserves spec block after := by
  simp only [reserveField] at h
  split_ifs at h with hcount
  · cases h
  · split at h
    · cases h
    · rename_i spec hspec
      split_ifs at h with hfits
      obtain ⟨hfirst, hlast⟩ := hfits
      cases h
      have hterm : spec.firstFree + spec.step * (counts.of f.name - 1) =
          IdentityBlock.last ⟨spec.firstFree, spec.step, counts.of f.name⟩ := by
        simp only [IdentityBlock.last, IdentityBlock.term]
        ring
      refine ⟨spec, _, hspec, identitySpec_insert_mark int _ _ _ _ hspec, ?_⟩
      exact ⟨rfl, rfl, not_le.mp hcount, hfirst, hterm ▸ hlast, by rw [hterm]⟩

theorem mem_blocksOf {reserved : List (Field × Option IdentityBlock)} {column : String}
    {block : IdentityBlock} :
    (column, block) ∈ blocksOf reserved ↔ ∃ g, (g, some block) ∈ reserved ∧ g.name = column := by
  simp only [blocksOf, Assoc.mem_present, mem_map, Prod.mk.injEq, Prod.exists]
  constructor
  · rintro ⟨g, o, hmem, rfl, rfl⟩
    exact ⟨g, hmem, rfl⟩
  · rintro ⟨g, hmem, rfl⟩
    exact ⟨g, some block, hmem, rfl, rfl⟩

theorem Schema.spec_of_mem (schema : Schema) (hf : f ∈ schema.fields) :
    schema.spec int f.name = f.spec int := by
  have hfind : schema.fields.find? (fun g => g.name = f.name) = some f := by
    obtain ⟨g, hg⟩ : ∃ g, schema.fields.find? (fun g => g.name = f.name) = some g := by
      refine Option.isSome_iff_exists.mp (List.find?_isSome.mpr ⟨f, hf, ?_⟩)
      simp
    have hmem : g ∈ schema.fields := mem_of_find?_eq_some hg
    have hname : g.name = f.name := by simpa using List.find?_some hg
    rw [hg, inj_on_of_nodup_map schema.distinct hmem hf hname]
  rw [Schema.spec, hfind, Option.bind_some]

theorem Schema.spec_of_not_mem (schema : Schema) {column : String}
    (h : column ∉ schema.fields.map Field.name) : schema.spec int column = none := by
  have hfind : schema.fields.find? (fun f => f.name = column) = none := by
    refine List.find?_eq_none.mpr fun f hf hname => h ?_
    exact mem_map.mpr ⟨f, hf, by simpa using hname⟩
  rw [Schema.spec, hfind, Option.bind_none]

variable {schema after : Schema} {blocks : Blocks}

theorem reserveIdentity_ok (h : reserveIdentity int schema counts = .ok (after, blocks)) :
    ∃ reserved, schema.fields.mapM (reserveField int counts) = .ok reserved ∧
      after.fields = reserved.map Prod.fst ∧ blocks = blocksOf reserved := by
  unfold reserveIdentity at h
  split at h
  · cases h
  · rename_i reserved hreserved
    split_ifs at h
    cases h
    exact ⟨reserved, hreserved, rfl, rfl⟩

/-- What a reservation says of a column: a block is reserved over its spec, or
nothing about it changes. -/
theorem reserveIdentity_spec (h : reserveIdentity int schema counts = .ok (after, blocks))
    (column : String) :
    (∀ block, (column, block) ∈ blocks → ∃ spec spec', schema.spec int column = some spec ∧
      after.spec int column = some spec' ∧ Reserves spec block spec') ∧
    ((∀ block, (column, block) ∉ blocks) → after.spec int column = schema.spec int column) := by
  obtain ⟨reserved, hreserved, hfields, rfl⟩ := reserveIdentity_ok int h
  have hmem := Result.mem_of_mapM_ok hreserved
  have hspec : ∀ f g o, reserveField int counts f = .ok (g, o) → f ∈ schema.fields →
      schema.spec int g.name = f.spec int ∧ after.spec int g.name = g.spec int := by
    intro f g o hfield hf
    have hname : g.name = f.name := reserveField_name int hfield
    have hg : g ∈ after.fields := by
      rw [hfields]
      exact mem_map.mpr ⟨(g, o), (hmem _).mpr ⟨f, hf, hfield⟩, rfl⟩
    exact ⟨hname ▸ schema.spec_of_mem int hf, after.spec_of_mem int hg⟩
  constructor
  · intro block hblock
    obtain ⟨g, hg, rfl⟩ := mem_blocksOf.mp hblock
    obtain ⟨f, hf, hfield⟩ := (hmem _).mp hg
    obtain ⟨hbefore, hafter⟩ := hspec f g _ hfield hf
    obtain ⟨spec, spec', h₁, h₂, hreserves⟩ := reserveField_some int hfield
    exact ⟨spec, spec', hbefore.trans h₁, hafter.trans h₂, hreserves⟩
  · intro hnone
    by_cases hcolumn : column ∈ schema.fields.map Field.name
    · obtain ⟨f, hf, rfl⟩ := mem_map.mp hcolumn
      obtain ⟨⟨g, o⟩, hfield⟩ := Result.exists_ok_of_mapM_ok hreserved f hf
      have hname : g.name = f.name := reserveField_name int hfield
      obtain ⟨hbefore, hafter⟩ := hspec f g o hfield hf
      rw [hname] at hbefore hafter
      cases o with
      | none =>
        rw [reserveField_none int hfield] at hafter
        exact hafter.trans hbefore.symm
      | some block =>
        refine absurd (mem_blocksOf.mpr ⟨g, (hmem _).mpr ⟨f, hf, hfield⟩, hname⟩) (hnone block)
    · have hnames : after.fields.map Field.name = schema.fields.map Field.name := by
        rw [hfields, map_map]
        exact Result.map_eq_of_mapM_ok (fun f r hr => reserveField_name int hr) hreserved
      rw [schema.spec_of_not_mem int hcolumn, after.spec_of_not_mem int (hnames ▸ hcolumn)]

theorem reserveIdentity_nodup (h : reserveIdentity int schema counts = .ok (after, blocks)) :
    (blocks.map Prod.fst).Nodup := by
  obtain ⟨reserved, -, hfields, rfl⟩ := reserveIdentity_ok int h
  have hnames : (reserved.map fun r => (r.1.name, r.2)).map Prod.fst =
      after.fields.map Field.name := by
    rw [hfields, map_map, map_map]
    rfl
  exact (hnames ▸ after.distinct).sublist (Assoc.keys_present_sublist _)

end

/-- The `index`-th of `slots` equal, disjoint parts of the block. -/
def IdentityBlock.slot (block : IdentityBlock) (index slots : Int) : Except String IdentityBlock :=
  if slots ≤ 0 ∨ ¬ (0 ≤ index ∧ index < slots) then
    .error s!"identity slot {index} is outside the {slots} the write reserved"
  else
    let size := block.count / slots
    .ok ⟨block.first + index * size * block.step, block.step, size⟩

/-- The values of a block one writer has not used yet. -/
structure IdentityCursor where
  block : IdentityBlock
  used : Int
  deriving DecidableEq

/-- The first of `rows` fresh values; refused when the block runs out. -/
def IdentityCursor.take (cursor : IdentityCursor) (name : String) (rows : Nat) :
    Except String Int × IdentityCursor :=
  if cursor.used + rows > cursor.block.count then
    (.error (s!"identity column {name}: this write reserved {cursor.block.count} values " ++
      "per task, and the task's data holds more rows than that " ++
      s!"({cursor.used + rows}); plan with a larger identity_rows_per_task"), cursor)
  else (.ok (cursor.block.first + cursor.used * cursor.block.step),
    { cursor with used := cursor.used + rows })

/-- Python's `range`; `none` where it raises. -/
def range (start stop step : Int) : Option (List Int) :=
  if step = 0 then none
  else
    let length :=
      if 0 < step then (stop - start + (step - 1)) / step else (start - stop + (-step - 1)) / -step
    some ((List.range length.toNat).map fun k : Nat => start + (k : Int) * step)

/-- `_identity_values`: what the rows get, `none` where it raises. -/
def identityValues (cursor : IdentityCursor) (name : String) (rows : Nat) :
    Option (List Int) × IdentityCursor :=
  let step := cursor.block.step
  if rows = 0 then (range cursor.block.first cursor.block.first step, cursor)
  else
    match cursor.take name rows with
    | (.error _, cursor) => (none, cursor)
    | (.ok first, cursor) => (range first (first + rows * step) step, cursor)

/-- A cursor in some process's memory, with what it was opened for. -/
structure Object where
  plan : Nat
  /-- The task whose slot it is over; 0 over a whole block. -/
  task : Int
  column : String
  cursor : IdentityCursor
  deriving DecidableEq

def Object.origin (o : Object) : Nat × Int × String := (o.plan, o.task, o.column)

/-- One committed reservation. -/
structure Reservation where
  before : Schema
  after : Schema
  blocks : Blocks
  /-- `identity_slots` of a distributed write's plan. -/
  slots : Option Int

/-- A value a row was given. -/
structure Handed where
  plan : Nat
  column : String
  value : Int
  deriving DecidableEq

/-- `_CURSORS` of every process. -/
abbrev Registry := List ((Nat × Nat × Int × String) × Nat)

structure World where
  schema : Schema
  plans : List Reservation
  heap : List Object
  registry : Registry
  handed : List Handed

def World.start (schema : Schema) : World := ⟨schema, [], [], [], []⟩

/-- The values rows of `column` were given. -/
def World.generated (w : World) (column : String) : List Int :=
  (w.handed.filter fun g => g.column = column).map Handed.value

/-- A cursor of its own over each block, for a local append's writer. -/
def openBlocks (plan : Nat) (blocks : Blocks) : List Object :=
  blocks.map fun b => ⟨plan, 0, b.1, b.2, 0⟩

def newCursor (process plan : Nat) (task : Int) (name : String) (block : IdentityBlock)
    (w : World) : World :=
  { w with
    heap := w.heap ++ [⟨plan, task, name, block, 0⟩]
    registry := ((process, plan, task, name), w.heap.length) :: w.registry }

/-- The process's cursor over `block`, the slot of task `task` of plan `plan`. -/
def slotCursor (process plan : Nat) (task : Int) (name : String) (block : IdentityBlock)
    (w : World) : World :=
  match (w.registry.lookup (process, plan, task, name)).bind fun ref => w.heap[ref]? with
  | none => newCursor process plan task name block w
  | some o => if o.cursor.block = block then w else newCursor process plan task name block w

/-- `_identity_slot`: the cursor over the task's slot of each reserved block. -/
def identitySlot (process plan : Nat) (task slots : Int) : Blocks → World → World
  | [], w => w
  | (name, block) :: rest, w =>
    match block.slot task slots with
    | .error _ => w
    | .ok part =>
      identitySlot process plan task slots rest (slotCursor process plan task name part w)

inductive Event where
  /-- A local append commits its reservation with its rows. -/
  | append (counts : Counts)
  /-- A distributed write commits its reservation. -/
  | plan (counts : Counts) (slots : Int)
  /-- A task calls `plan.write`. -/
  | write (plan : Nat) (task : Int)
  /-- A writer asks its cursor for values of some rows. -/
  | values (ref : Nat) (rows : Nat)
  deriving DecidableEq

section
variable (int : IntOf) (process : Nat → Int → Nat)

/-- A reservation that commits; a refused one changes nothing. -/
def World.reserve (w : World) (counts : Counts) (slots : Option Int) : World :=
  match reserveIdentity int w.schema counts with
  | .error _ => w
  | .ok (after, blocks) =>
    { w with
      schema := after
      plans := w.plans ++ [⟨w.schema, after, blocks, slots⟩]
      heap := if slots.isSome then w.heap else w.heap ++ openBlocks w.plans.length blocks }

def World.write (w : World) (plan : Nat) (task : Int) : World :=
  match w.plans[plan]? with
  | none => w
  | some r =>
    match r.slots with
    | none => w
    | some slots => identitySlot (process plan task) plan task slots r.blocks w

def World.values (w : World) (ref rows : Nat) : World :=
  match w.heap[ref]? with
  | none => w
  | some o =>
    let drawn := identityValues o.cursor o.column rows
    { w with
      heap := w.heap.set ref { o with cursor := drawn.2 }
      handed := w.handed ++ (drawn.1.getD []).map fun v => ⟨o.plan, o.column, v⟩ }

/-- One step; task `task` of plan `plan` runs in `process plan task`. -/
def next (w : World) : Event → Option World
  | .append counts => some (w.reserve int counts none)
  | .plan counts slots => some (w.reserve int counts (some slots))
  | .write plan task => some (w.write process plan task)
  | .values ref rows => some (w.values ref rows)

/-- The worlds a table of that schema reaches. -/
abbrev Reached (schema : Schema) (w : World) : Prop :=
  Run (next int process) (fun _ _ => True) (World.start schema) w

end

theorem range_terms {step : Int} (h : step ≠ 0) (first : Int) (rows : Nat) :
    range first (first + rows * step) step =
      some ((List.range rows).map fun k : Nat => first + (k : Int) * step) := by
  have hlength : (if 0 < step then (first + rows * step - first + (step - 1)) / step
      else (first - (first + rows * step) + (-step - 1)) / -step).toNat = rows := by
    split_ifs with hpos
    · have hsum : first + rows * step - first + (step - 1) = (step - 1) + rows * step := by ring
      rw [hsum, Int.add_mul_ediv_right _ _ h, Int.ediv_eq_zero_of_lt (by omega) (by omega)]
      omega
    · have hsum : first - (first + rows * step) + (-step - 1) = (-step - 1) + rows * -step := by
        ring
      rw [hsum, Int.add_mul_ediv_right _ _ (by omega),
        Int.ediv_eq_zero_of_lt (by omega) (by omega)]
      omega
  simp only [range, if_neg h, hlength]

theorem slot_ok {block part : IdentityBlock} {index slots : Int}
    (h : block.slot index slots = .ok part) :
    0 ≤ index ∧ index < slots ∧ part.count = block.count / slots ∧ part.step = block.step ∧
      part.first = block.term (index * part.count) := by
  simp only [IdentityBlock.slot] at h
  split_ifs at h with hout
  cases h
  refine ⟨by omega, by omega, rfl, rfl, rfl⟩

/-- What a draw leaves: the cursor past the rows it gave, if it gave any, and
what they were given. -/
theorem identityValues_spec (cursor : IdentityCursor) (name : String) (rows : Nat)
    (hused : cursor.used ≤ cursor.block.count) :
    ∃ taken : Nat, cursor.used + taken ≤ cursor.block.count ∧
      (identityValues cursor name rows).2 = { cursor with used := cursor.used + taken } ∧
      (identityValues cursor name rows).1.getD [] =
        if cursor.block.step = 0 then []
        else (List.range taken).map fun k : Nat => cursor.block.term (cursor.used + k) := by
  have hterms : ∀ (first : Int) (rows : Nat),
      (range first (first + rows * cursor.block.step) cursor.block.step).getD [] =
        if cursor.block.step = 0 then []
        else (List.range rows).map fun k : Nat => first + (k : Int) * cursor.block.step := by
    intro first rows
    split_ifs with hstep
    · simp [range, hstep]
    · rw [range_terms hstep, Option.getD_some]
  unfold identityValues
  by_cases hrows : rows = 0
  · refine ⟨0, by simpa using hused, ?_, ?_⟩
    · simp [hrows]
    · simpa [hrows] using hterms cursor.block.first 0
  · by_cases hroom : cursor.used + rows > cursor.block.count
    · refine ⟨0, by simpa using hused, ?_, ?_⟩
      · simp [hrows, IdentityCursor.take, hroom]
      · simp [hrows, IdentityCursor.take, hroom]
    · refine ⟨rows, not_lt.mp hroom, ?_, ?_⟩
      · simp only [hrows, IdentityCursor.take, hroom, if_false]
      · simp only [hrows, IdentityCursor.take, hroom, if_false, hterms]
        congr 1
        refine map_congr_left fun k _ => ?_
        simp only [IdentityBlock.term]
        ring

end DeltaSwamp.Identity
