import DeltaSwamp.Arrow.Nested

/-!
# Reading in file order is transparent

An array read with the type `order_type` gives has the requested fields in some
order; `reorder_array` puts them in the requested one.
-/

namespace DeltaSwamp.Arrow

open List

section
variable {α : Type}

mutual

/-- An array as a reader asked for a type gives it: each struct has the fields of its type, in
their order. -/
def ReadAs : KernelType → Nested α → Prop
  | .primitive _, .leaf _ => True
  | .struct fields, .struct _ columns _ => ReadFields fields columns
  | .variant fields, .struct _ columns _ => ReadFields fields columns
  | .array element _, .list kind _ item _ =>
    (kind = .list ∨ kind = .largeList) ∧ ReadAs element item.values
  | .map key value _, .map _ _ keys values _ _ =>
    ReadAs key keys.values ∧ ReadAs value values.values
  | _, _ => False

def ReadFields : List Field → List (Column α) → Prop
  | [], [] => True
  | ⟨name, type, _, _⟩ :: fields, column :: columns =>
    column.name = name ∧ ReadAs type column.values ∧ ReadFields fields columns
  | _, _ => False

end

mutual

/-- The second array has, at every level, the requested fields in the requested order, each with
the values the first has under that name; all else is the same. -/
def Restored : KernelType → Nested α → Nested α → Prop
  | .primitive _, read, given => given = read
  | .struct fields, .struct length columns nulls, .struct length' columns' nulls' =>
    length' = length ∧ nulls' = nulls ∧ (columns.map (·.name)).Nodup ∧
      RestoredFields fields columns columns'
  | .variant fields, .struct length columns nulls, .struct length' columns' nulls' =>
    length' = length ∧ nulls' = nulls ∧ (columns.map (·.name)).Nodup ∧
      RestoredFields fields columns columns'
  | .array element _, .list kind offsets item nulls, .list kind' offsets' item' nulls' =>
    kind' = kind ∧ offsets' = offsets ∧ nulls' = nulls ∧ item'.name = item.name ∧
      item'.nullable = item.nullable ∧ Restored element item.values item'.values
  | .map key value _, .map sorted offsets keys values entryNulls nulls,
      .map sorted' offsets' keys' values' entryNulls' nulls' =>
    sorted' = sorted ∧ offsets' = offsets ∧ entryNulls' = entryNulls ∧ nulls' = nulls ∧
      (keys'.name = keys.name ∧ keys'.nullable = keys.nullable ∧
        Restored key keys.values keys'.values) ∧
      values'.name = values.name ∧ values'.nullable = values.nullable ∧
        Restored value values.values values'.values
  | _, _, _ => False

def RestoredFields : List Field → List (Column α) → List (Column α) → Prop
  | [], _, given => given = []
  | ⟨name, type, _, _⟩ :: fields, columns, column' :: given =>
    (∃ column ∈ columns, column.name = name ∧ column'.name = name ∧
      column'.nullable = column.nullable ∧ Restored type column.values column'.values) ∧
      RestoredFields fields columns given
  | _, _, [] => False

end

mutual

/-- The array has the requested fields at every level, in any order. -/
def Holds : KernelType → Nested α → Prop
  | .primitive _, _ => True
  | .struct fields, .struct _ columns _ =>
    (columns.map (·.name)).Nodup ∧ HoldsFields fields columns
  | .variant fields, .struct _ columns _ =>
    (columns.map (·.name)).Nodup ∧ HoldsFields fields columns
  | .array element _, .list kind _ item _ =>
    (kind = .list ∨ kind = .largeList) ∧ Holds element item.values
  | .map key value _, .map _ _ keys values _ _ =>
    Holds key keys.values ∧ Holds value values.values
  | _, _ => False

def HoldsFields : List Field → List (Column α) → Prop
  | [], _ => True
  | ⟨name, type, _, _⟩ :: fields, columns =>
    (∃ column ∈ columns, column.name = name ∧ Holds type column.values) ∧
      HoldsFields fields columns

end

end

mutual

/-- Every struct has a field. -/
def KernelType.Filled : KernelType → Prop
  | .primitive _ => True
  | .struct fields => fields ≠ [] ∧ FilledFields fields
  | .variant fields => fields ≠ [] ∧ FilledFields fields
  | .array element _ => element.Filled
  | .map key value _ => key.Filled ∧ value.Filled

def FilledFields : List Field → Prop
  | [] => True
  | ⟨_, type, _, _⟩ :: fields => type.Filled ∧ FilledFields fields

end

attribute [local simp] orderType orderFields reorderArray reorderFields ReadAs ReadFields
  Restored RestoredFields Holds HoldsFields KernelType.Named NamedFields KernelType.Filled
  FilledFields

section
variable {α : Type}

variable {fields : List Field} {columns : List (Column α)}

theorem holdsFields_iff :
    HoldsFields fields columns ↔
      ∀ f ∈ fields, ∃ column ∈ columns, column.name = f.name ∧ Holds f.type column.values := by
  induction fields with
  | nil => simp [HoldsFields]
  | cons f fields ih => simp [HoldsFields, ih]

theorem readFields_names (h : ReadFields fields columns) :
    columns.map (·.name) = fields.map (·.name) := by
  induction fields generalizing columns with
  | nil =>
    cases columns with
    | nil => rfl
    | cons column columns => exact h.elim
  | cons f fields ih =>
    cases columns with
    | nil => exact h.elim
    | cons column columns =>
      obtain ⟨hname, -, hrest⟩ := h
      rw [map_cons, map_cons, hname, ih hrest]

theorem readFields_mem (h : ReadFields fields columns) {f : Field} (hf : f ∈ fields) :
    ∃ column ∈ columns, column.name = f.name ∧ ReadAs f.type column.values := by
  induction fields generalizing columns with
  | nil => exact absurd hf not_mem_nil
  | cons g fields ih =>
    cases columns with
    | nil => exact h.elim
    | cons column columns =>
      obtain ⟨hname, hread, hrest⟩ := h
      obtain rfl | hf := mem_cons.mp hf
      · exact ⟨column, by simp, hname, hread⟩
      · obtain ⟨found, hmem, hfound⟩ := ih hrest hf
        exact ⟨found, by simp [hmem], hfound⟩

/-- Read with a struct type whose fields are the requested ones, up to order and to the order
of the structs inside. -/
theorem holdsFields_read {read : List Field} (hread : ReadFields read columns)
    (hfields : ∀ f ∈ fields, ∃ g ∈ read, g.name = f.name ∧
      ∀ a : Nested α, ReadAs g.type a → Holds f.type a) : HoldsFields fields columns := by
  rw [holdsFields_iff]
  intro f hf
  obtain ⟨g, hg, hname, hholds⟩ := hfields f hf
  obtain ⟨column, hmem, hcolumn, hreads⟩ := readFields_mem hread hg
  exact ⟨column, hmem, hcolumn.trans hname, hholds _ hreads⟩

variable {a : Nested α}

theorem readAs_variant : ReadAs (.variant fields) a ↔ ReadAs (.struct fields) a := by
  cases a <;> simp [ReadAs]

theorem holds_variant : Holds (.variant fields) a ↔ Holds (.struct fields) a := by
  cases a <;> simp [Holds]

theorem holds_struct {read : List Field} (hread : ReadAs (.struct read) a)
    (hnodup : (read.map (·.name)).Nodup) (hfields : ∀ f ∈ fields, ∃ g ∈ read, g.name = f.name ∧
      ∀ a : Nested α, ReadAs g.type a → Holds f.type a) : Holds (.struct fields) a := by
  cases a with
  | struct length columns nulls =>
    rw [ReadAs] at hread
    rw [Holds, readFields_names hread]
    exact ⟨hnodup, holdsFields_read hread hfields⟩
  | leaf | list | map => simp [ReadAs] at hread

theorem holds_of_readAs :
    (∀ t : KernelType, t.Named → ∀ a : Nested α, ReadAs t a → Holds t a) ∧
      ∀ fields : List Field, NamedFields fields →
        ∀ f ∈ fields, ∀ a : Nested α, ReadAs f.type a → Holds f.type a := by
  refine KernelType.induct ?_ ?_ ?_ ?_ ?_ ?_ ?_
  · intro p _ a _
    simp [Holds]
  · intro fields ih hnamed a hread
    exact holds_struct hread hnamed.1 fun f hf => ⟨f, hf, rfl, ih hnamed.2 f hf⟩
  · intro fields ih hnamed a hread
    rw [readAs_variant] at hread
    rw [holds_variant]
    exact holds_struct hread hnamed.1 fun f hf => ⟨f, hf, rfl, ih hnamed.2 f hf⟩
  · intro element b ih hnamed a hread
    cases a with
    | list kind offsets item nulls =>
      rw [ReadAs] at hread
      rw [Holds]
      exact ⟨hread.1, ih hnamed _ hread.2⟩
    | leaf | struct | map => simp [ReadAs] at hread
  · intro key value b ihk ihv hnamed a hread
    cases a with
    | map sorted offsets keys values entryNulls nulls =>
      rw [ReadAs] at hread
      rw [Holds]
      exact ⟨ihk hnamed.1 _ hread.1, ihv hnamed.2 _ hread.2⟩
    | leaf | struct | list => simp [ReadAs] at hread
  · intro _ f hf
    exact absurd hf not_mem_nil
  · intro f fields ihf ihfs hnamed g hg
    obtain ⟨htype, hfields⟩ := hnamed
    obtain rfl | hg := mem_cons.mp hg
    · exact ihf htype
    · exact ihfs hfields g hg

variable {lib : Building α}

variable {b inMap : Bool}

theorem orderType_map {key value : KernelType} {k v : Text × DiskType}
    {orderedKey orderedValue : Option KernelType}
    (hkey : orderType lib key k.2 true = .ok orderedKey)
    (hvalue : orderType lib value v.2 true = .ok orderedValue) :
    orderType lib (.map key value b) (.map (.struct [k, v])) inMap =
      .ok (if orderedKey.isNone && orderedValue.isNone then none
        else some (.map (orderedKey.getD key) (orderedValue.getD value) b)) := by
  simp only [orderType, hkey, hvalue, Result.ok_bind]
  split <;> rfl

theorem orderType_struct {ordered : List Field} {disk : List (Text × DiskType)} {changed : Bool}
    (hfields : orderFields lib fields disk inMap = .ok (changed, ordered))
    (hnodup : (ordered.map (·.name)).Nodup) :
    ∃ sorted, sorted.Perm ordered ∧
      (orderType lib (.struct fields) (.struct disk) inMap = .ok (some (.struct sorted)) ∨
        orderType lib (.struct fields) (.struct disk) inMap = .ok none) := by
  let sorted := if inMap then
      ordered.mergeSort fun f g => position disk f.name ≤ position disk g.name
    else ordered
  have hperm : sorted.Perm ordered := by
    cases inMap with
    | false => exact List.Perm.refl _
    | true => exact mergeSort_perm _ _
  have hsorted := lib.tryNew_named _ ((hperm.map (·.name)).nodup_iff.mpr hnodup)
  refine ⟨sorted, hperm, ?_⟩
  simp only [orderType, hfields, Result.ok_bind]
  by_cases hcond : (changed || decide (sorted.map (·.name) ≠ ordered.map (·.name))) = true
  · left
    rw [if_pos hcond, hsorted]
    rfl
  · right
    rw [if_neg hcond]
    rfl

/-- The type `order_type` gives, if any, reads arrays that hold the requested fields. -/
def Ordered (lib : Building α) (t : KernelType) (disk : DiskType) (inMap : Bool) : Prop :=
  ∃ ordered, orderType lib t disk inMap = .ok ordered ∧
    ∀ a : Nested α, ReadAs (ordered.getD t) a → Holds t a

theorem ordered_unchanged {t : KernelType} {disk : DiskType} (hnamed : t.Named)
    (h : orderType lib t disk inMap = .ok none) : Ordered lib t disk inMap :=
  ⟨none, h, holds_of_readAs.1 t hnamed⟩

theorem ordered_variant (hnamed : (KernelType.variant fields).Named) (disk : DiskType)
    (inMap : Bool) : Ordered lib (.variant fields) disk inMap := by
  cases disk with
  | struct disk =>
    cases inMap with
    | false => exact ordered_unchanged hnamed (by simp [orderType])
    | true =>
      by_cases hcond : (lib.isUnshredded fields &&
          decide (disk.map Prod.fst = ["value".toList, "metadata".toList])) = true
      · have hfields := (lib.isUnshredded_iff _).mp (Bool.and_eq_true_iff.mp hcond).1
        subst hfields
        refine ⟨some (.struct [⟨"value".toList, .primitive .binary, false, []⟩,
          ⟨"metadata".toList, .primitive .binary, false, []⟩]), ?_, fun a hread => ?_⟩
        · rw [orderType, if_pos hcond]
          exact Result.bind_eq_ok_iff.mpr ⟨_, lib.tryNew_named _ (by decide), rfl⟩
        · rw [Option.getD_some] at hread
          rw [holds_variant]
          exact holds_struct hread (by decide) (by simp [Holds])
      · refine ordered_unchanged hnamed ?_
        rw [orderType, if_neg hcond]
  | leaf | list | map => exact ordered_unchanged hnamed (by simp [orderType])

theorem ordered_array {element : KernelType} (hnamed : element.Named)
    (ih : ∀ disk inMap, Ordered lib element disk inMap) (disk : DiskType) (inMap : Bool) :
    Ordered lib (.array element b) disk inMap := by
  cases disk with
  | list kind item =>
    by_cases hkind : (decide (kind = .list) || decide (kind = .largeList)) = true
    · obtain ⟨ordered, horder, hholds⟩ := ih item inMap
      refine ⟨ordered.map fun element => .array element b, ?_, fun a hread => ?_⟩
      · rw [orderType, if_pos hkind, horder]
        rfl
      · have hread : ReadAs (.array (ordered.getD element) b) a := by
          cases ordered <;> exact hread
        cases a with
        | list kind offsets item nulls =>
          rw [ReadAs] at hread
          rw [Holds]
          exact ⟨hread.1, hholds _ hread.2⟩
        | leaf | struct | map => simp [ReadAs] at hread
    · refine ordered_unchanged hnamed ?_
      rw [orderType, if_neg hkind]
  | leaf | struct | map => exact ordered_unchanged hnamed (by simp [orderType])

theorem ordered_map {key value : KernelType} (hnamed : (KernelType.map key value b).Named)
    (ihk : ∀ disk inMap, Ordered lib key disk inMap)
    (ihv : ∀ disk inMap, Ordered lib value disk inMap)
    (disk : DiskType) (inMap : Bool) : Ordered lib (.map key value b) disk inMap := by
  obtain name | fields | ⟨kind, item⟩ | entries := disk
  · exact ordered_unchanged hnamed (by simp [orderType])
  · exact ordered_unchanged hnamed (by simp [orderType])
  · exact ordered_unchanged hnamed (by simp [orderType])
  · obtain name | fields | ⟨kind, item⟩ | entries := entries
    · exact ordered_unchanged hnamed (by simp [orderType])
    · obtain _ | ⟨k, _ | ⟨v, _ | ⟨w, rest⟩⟩⟩ := fields
      · exact ordered_unchanged hnamed (by simp [orderType])
      · exact ordered_unchanged hnamed (by simp [orderType])
      · obtain ⟨orderedKey, hkey, hholdsKey⟩ := ihk k.2 true
        obtain ⟨orderedValue, hvalue, hholdsValue⟩ := ihv v.2 true
        refine ⟨_, orderType_map hkey hvalue, fun a hread => ?_⟩
        have hread : ReadAs (.map (orderedKey.getD key) (orderedValue.getD value) b) a := by
          cases orderedKey <;> cases orderedValue <;> exact hread
        cases a with
        | map sorted offsets keys values entryNulls nulls =>
          rw [ReadAs] at hread
          rw [Holds]
          exact ⟨hholdsKey _ hread.1, hholdsValue _ hread.2⟩
        | leaf | struct | list => simp [ReadAs] at hread
      · exact ordered_unchanged hnamed (by simp [orderType])
    · exact ordered_unchanged hnamed (by simp [orderType])
    · exact ordered_unchanged hnamed (by simp [orderType])

theorem orderFields_cons {f : Field} {rest : List Field} {disk : List (Text × DiskType)}
    {changed : Bool} (hnamed : f.type.Named) (ih : ∀ disk inMap, Ordered lib f.type disk inMap)
    (hrest : orderFields lib fields disk inMap = .ok (changed, rest)) :
    ∃ changed' g, orderFields lib (f :: fields) disk inMap = .ok (changed', g :: rest) ∧
      g.name = f.name ∧ ∀ a : Nested α, ReadAs g.type a → Holds f.type a := by
  obtain ⟨name, type, nullable, computed⟩ := f
  rw [orderFields]
  cases disk.find? fun d => d.1 = name with
  | none =>
    refine ⟨changed, ⟨name, type, nullable, computed⟩, ?_, rfl, holds_of_readAs.1 type hnamed⟩
    simp only [Result.ok_bind, hrest]
    rfl
  | some d =>
    obtain ⟨ordered, horder, hholds⟩ := ih d.2 inMap
    refine ⟨ordered.isSome || changed, ⟨name, ordered.getD type, nullable, computed⟩, ?_, rfl,
      hholds⟩
    simp only [horder, Result.ok_bind, hrest]
    rfl

theorem orderType_holds :
    (∀ t : KernelType, t.Named → ∀ disk inMap, Ordered lib t disk inMap) ∧
    ∀ fields : List Field, NamedFields fields → ∀ disk inMap, ∃ changed ordered,
      orderFields lib fields disk inMap = .ok (changed, ordered) ∧
      ordered.map (·.name) = fields.map (·.name) ∧
      ∀ f ∈ fields, ∃ g ∈ ordered, g.name = f.name ∧
        ∀ a : Nested α, ReadAs g.type a → Holds f.type a := by
  refine KernelType.induct ?_ ?_ ?_ ?_ ?_ ?_ ?_
  · intro p hnamed disk inMap
    exact ordered_unchanged hnamed (by simp [orderType])
  · intro fields ih hnamed disk inMap
    cases disk with
    | struct disk =>
      obtain ⟨changed, ordered, hfields, hnames, hmem⟩ := ih hnamed.2 disk inMap
      have hnodup : (ordered.map (·.name)).Nodup := hnames ▸ hnamed.1
      obtain ⟨sorted, hperm, hsome | hnone⟩ := orderType_struct hfields hnodup
      · refine ⟨_, hsome, fun a hread => ?_⟩
        rw [Option.getD_some] at hread
        refine holds_struct hread ((hperm.map (·.name)).nodup_iff.mpr hnodup) fun f hf => ?_
        obtain ⟨g, hg, hholds⟩ := hmem f hf
        exact ⟨g, hperm.mem_iff.mpr hg, hholds⟩
      · exact ordered_unchanged hnamed hnone
    | leaf | list | map => exact ordered_unchanged hnamed (by simp [orderType])
  · exact fun fields _ hnamed => ordered_variant hnamed
  · exact fun element b ih hnamed => ordered_array hnamed (ih hnamed)
  · exact fun key value b ihk ihv hnamed => ordered_map hnamed (ihk hnamed.1) (ihv hnamed.2)
  · intro _ disk inMap
    exact ⟨false, [], by rw [orderFields], rfl, by simp⟩
  · intro f fields ihf ihfs hnamed disk inMap
    obtain ⟨htype, hfields⟩ := hnamed
    obtain ⟨changed, rest, hrest, hnames, hmem⟩ := ihfs hfields disk inMap
    obtain ⟨changed', g, horder, hname, hholds⟩ := orderFields_cons htype (ihf htype) hrest
    refine ⟨changed', g :: rest, horder, by rw [map_cons, map_cons, hname, hnames], ?_⟩
    intro other hother
    obtain rfl | hother := mem_cons.mp hother
    · exact ⟨g, mem_cons_self, hname, hholds⟩
    · obtain ⟨found, hfound, hrel⟩ := hmem other hother
      exact ⟨found, mem_cons_of_mem _ hfound, hrel⟩

theorem restoredFields_nil : RestoredFields fields columns [] ↔ fields = [] := by
  cases fields with
  | nil => simp [RestoredFields]
  | cons f fields => simp [RestoredFields]

theorem reorderStruct (length : Nat) (nulls : Nulls)
    (hrestored : FilledFields fields → ∃ given, reorderFields lib fields columns = .ok given ∧
      RestoredFields fields columns given)
    (hfilled : (∃ given, reorderFields lib fields columns = .ok given) → FilledFields fields) :
    (fields ≠ [] ∧ FilledFields fields → ∃ given,
      (reorderFields lib fields columns >>= fun c => lib.structArray length c nulls) =
        .ok (.struct length given nulls) ∧ RestoredFields fields columns given) ∧
    ((∃ b, (reorderFields lib fields columns >>= fun c => lib.structArray length c nulls) = .ok b) →
      fields ≠ [] ∧ FilledFields fields) := by
  constructor
  · rintro ⟨hne, hfields⟩
    obtain ⟨given, hgiven, hrel⟩ := hrestored hfields
    refine ⟨given, ?_, hrel⟩
    rw [hgiven, Result.ok_bind, lib.structArray_ok]
    refine ⟨?_, rfl⟩
    rintro rfl
    exact hne (restoredFields_nil.mp hrel)
  · rintro ⟨b, hb⟩
    rw [Result.bind_eq_ok_iff] at hb
    obtain ⟨given, hgiven, hstruct⟩ := hb
    refine ⟨?_, hfilled ⟨given, hgiven⟩⟩
    rintro rfl
    rw [reorderFields, Except.ok.injEq] at hgiven
    exact ((lib.structArray_ok _ _ _ _).mp hstruct).1 hgiven.symm

theorem reorderStruct_holds
    (ih : ∀ columns : List (Column α), (columns.map (·.name)).Nodup → HoldsFields fields columns →
      (FilledFields fields → ∃ given, reorderFields lib fields columns = .ok given ∧
        RestoredFields fields columns given) ∧
        ((∃ given, reorderFields lib fields columns = .ok given) → FilledFields fields))
    (hholds : Holds (.struct fields) a) :
    ((KernelType.struct fields).Filled →
        ∃ b, reorderArray lib (.struct fields) a = .ok b ∧ Restored (.struct fields) a b) ∧
      ((∃ b, reorderArray lib (.struct fields) a = .ok b) → (KernelType.struct fields).Filled) := by
  cases a with
  | struct length columns nulls =>
    rw [Holds] at hholds
    obtain ⟨hrestored, hfilled⟩ := ih columns hholds.1 hholds.2
    obtain ⟨hgives, hgiven⟩ := reorderStruct length nulls hrestored hfilled
    rw [reorderArray, KernelType.Filled]
    refine ⟨fun h => ?_, hgiven⟩
    obtain ⟨given, heq, hrel⟩ := hgives h
    refine ⟨_, heq, ?_⟩
    rw [Restored]
    exact ⟨rfl, rfl, hholds.1, hrel⟩
  | leaf | list | map => simp [Holds] at hholds

theorem reorderArray_variant :
    reorderArray lib (.variant fields) a = reorderArray lib (.struct fields) a := by
  cases a <;> simp [reorderArray]

theorem restored_variant {b : Nested α} :
    Restored (.variant fields) a b ↔ Restored (.struct fields) a b := by
  cases a <;> cases b <;> simp [Restored]

/-- An array that holds the requested fields is put in their order, exactly if every requested
struct has a field. -/
theorem reorderArray_holds :
    (∀ t : KernelType, t.Named → ∀ a : Nested α, Holds t a →
      (t.Filled → ∃ b, reorderArray lib t a = .ok b ∧ Restored t a b) ∧
        ((∃ b, reorderArray lib t a = .ok b) → t.Filled)) ∧
    ∀ fields : List Field, NamedFields fields → ∀ columns : List (Column α),
      (columns.map (·.name)).Nodup → HoldsFields fields columns →
      (FilledFields fields → ∃ given, reorderFields lib fields columns = .ok given ∧
        RestoredFields fields columns given) ∧
        ((∃ given, reorderFields lib fields columns = .ok given) → FilledFields fields) := by
  refine KernelType.induct ?_ ?_ ?_ ?_ ?_ ?_ ?_
  · intro p _ a _
    exact ⟨fun _ => ⟨a, by simp [reorderArray], by simp [Restored]⟩, fun _ => trivial⟩
  · exact fun fields ih hnamed a hholds => reorderStruct_holds (ih hnamed.2) hholds
  · intro fields ih hnamed a hholds
    rw [holds_variant] at hholds
    obtain ⟨hrestored, hfilled⟩ := reorderStruct_holds (ih hnamed.2) hholds
    simp only [reorderArray_variant, restored_variant]
    exact ⟨hrestored, hfilled⟩
  · intro element b ih hnamed a hholds
    cases a with
    | list kind offsets item nulls =>
      rw [Holds] at hholds
      obtain ⟨hkind, hitem⟩ := hholds
      have hcond : (decide (kind = .list) || decide (kind = .largeList)) = true := by
        simpa using hkind
      obtain ⟨hrestored, hfilled⟩ := ih hnamed _ hitem
      constructor
      · intro helement
        obtain ⟨values, hvalues, hrel⟩ := hrestored helement
        refine ⟨.list kind offsets { item with values := values } nulls, ?_, ?_⟩
        · rw [reorderArray, if_pos hcond, hvalues]
          rfl
        · rw [Restored]
          exact ⟨rfl, rfl, rfl, rfl, rfl, hrel⟩
      · rintro ⟨given, hgiven⟩
        rw [reorderArray, if_pos hcond, Result.bind_eq_ok_iff] at hgiven
        obtain ⟨values, hvalues, -⟩ := hgiven
        exact hfilled ⟨values, hvalues⟩
    | leaf | struct | map => simp [Holds] at hholds
  · intro key value b ihk ihv hnamed a hholds
    cases a with
    | map sorted offsets keys values entryNulls nulls =>
      rw [Holds] at hholds
      obtain ⟨hrestoredKey, hfilledKey⟩ := ihk hnamed.1 _ hholds.1
      obtain ⟨hrestoredValue, hfilledValue⟩ := ihv hnamed.2 _ hholds.2
      constructor
      · rintro ⟨hkey, hvalue⟩
        obtain ⟨givenKeys, hkeys, hkeysRel⟩ := hrestoredKey hkey
        obtain ⟨givenValues, hvalues, hvaluesRel⟩ := hrestoredValue hvalue
        refine ⟨.map sorted offsets { keys with values := givenKeys }
          { values with values := givenValues } entryNulls nulls, ?_, ?_⟩
        · rw [reorderArray, hkeys, Result.ok_bind, hvalues]
          rfl
        · rw [Restored]
          exact ⟨rfl, rfl, rfl, rfl, ⟨rfl, rfl, hkeysRel⟩, rfl, rfl, hvaluesRel⟩
      · rintro ⟨given, hgiven⟩
        rw [reorderArray, Result.bind_eq_ok_iff] at hgiven
        obtain ⟨givenKeys, hkeys, hgiven⟩ := hgiven
        rw [Result.bind_eq_ok_iff] at hgiven
        obtain ⟨givenValues, hvalues, -⟩ := hgiven
        exact ⟨hfilledKey ⟨givenKeys, hkeys⟩, hfilledValue ⟨givenValues, hvalues⟩⟩
    | leaf | struct | list => simp [Holds] at hholds
  · intro _ columns _ _
    exact ⟨fun _ => ⟨[], by rw [reorderFields], by simp [RestoredFields]⟩, fun _ => trivial⟩
  · intro f fields ihf ihfs hnamed columns hnodup hholds
    obtain ⟨name, type, nullable, computed⟩ := f
    obtain ⟨htype, hfields⟩ := hnamed
    obtain ⟨⟨column, hmem, hname, hcolumn⟩, hrest⟩ := hholds
    obtain ⟨hrestored, hfilled⟩ := ihf htype _ hcolumn
    obtain ⟨hrestoredRest, hfilledRest⟩ := ihfs hfields columns hnodup hrest
    have hfind := find?_column hnodup hmem
    rw [hname] at hfind
    constructor
    · rintro ⟨hfilledType, hfilledFields⟩
      obtain ⟨values, hvalues, hrel⟩ := hrestored hfilledType
      obtain ⟨given, hgiven, hgivenRel⟩ := hrestoredRest hfilledFields
      refine ⟨{ column with values := values } :: given, ?_, ?_⟩
      · rw [reorderFields, hfind]
        simp only [hvalues, Result.ok_bind, hgiven]
        rfl
      · rw [RestoredFields]
        exact ⟨⟨column, hmem, hname, hname, rfl, hrel⟩, hgivenRel⟩
    · rintro ⟨given, hgiven⟩
      rw [reorderFields, hfind] at hgiven
      simp only [Result.bind_eq_ok_iff] at hgiven
      obtain ⟨values, hvalues, rest, hrestGiven, -⟩ := hgiven
      exact ⟨hfilled ⟨values, hvalues⟩, hfilledRest ⟨rest, hrestGiven⟩⟩

/-- Reading with the type `order_type` gives and reordering restores the requested fields,
exactly if every requested struct has one. -/
theorem reorder_restores_iff {want : KernelType} (hnamed : want.Named) (disk : DiskType)
    (inMap : Bool) :
    ∃ ordered, orderType lib want disk inMap = .ok ordered ∧
      ∀ a : Nested α, ReadAs (ordered.getD want) a →
        ((∃ b, reorderArray lib want a = .ok b ∧ Restored want a b) ↔ want.Filled) := by
  obtain ⟨ordered, horder, hholds⟩ := orderType_holds.1 want hnamed disk inMap
  refine ⟨ordered, horder, fun a hread => ?_⟩
  obtain ⟨hrestored, hfilled⟩ := reorderArray_holds.1 want hnamed a (hholds a hread)
  constructor
  · rintro ⟨b, hb, -⟩
    exact hfilled ⟨b, hb⟩
  · exact hrestored

/-- A map to VARIANTs, and as Spark stores it: each value before its metadata. -/
def variants : KernelType :=
  .map (.primitive .string) (.variant [⟨"metadata".toList, .primitive .binary, false, []⟩,
    ⟨"value".toList, .primitive .binary, false, []⟩]) true

def variantsOnDisk : DiskType :=
  .map (.struct [("key".toList, .leaf "Utf8".toList), ("value".toList,
    .struct [("value".toList, .leaf "Binary".toList),
      ("metadata".toList, .leaf "Binary".toList)])])

/-- What the constructors of the kernel and of Arrow are documented to do. -/
def documented (α : Type) : Building α where
  tryNew fields :=
    if (fields.map (·.name)).Nodup then .ok (.struct fields) else .error .duplicateField
  tryNew_named _ h := if_pos h
  isUnshredded
    | [⟨metadata, .primitive .binary, false, []⟩, ⟨value, .primitive .binary, false, []⟩] =>
      metadata = "metadata".toList && value = "value".toList
    | _ => false
  isUnshredded_iff fields := by
    constructor
    · intro h
      split at h
      · simp only [Bool.and_eq_true, decide_eq_true_eq] at h
        rw [h.1, h.2]
      · exact absurd h (by decide)
    · rintro rfl
      decide
  structArray length columns nulls :=
    if columns.isEmpty then .error .noColumns else .ok (.struct length columns nulls)
  structArray_ok length columns nulls array := by
    cases columns with
    | nil => simp
    | cons column columns => simp [eq_comm]

theorem reorder_restores_iff_variants :
    ∃ ordered, orderType (documented (List Nat)) variants variantsOnDisk false = .ok ordered ∧
      ∀ a, ReadAs (ordered.getD variants) a →
        ((∃ b, reorderArray (documented (List Nat)) variants a = .ok b ∧
          Restored variants a b) ↔ variants.Filled) :=
  reorder_restores_iff (by simp [variants, KernelType.Named, NamedFields]) _ _

/-- A struct without fields, read as it is, is not put together again. -/
theorem empty_struct_refused :
    ¬ ∃ lib : Building Unit, ∀ (want : KernelType) (disk : DiskType) (inMap : Bool), want.Named →
      ∃ ordered, orderType lib want disk inMap = .ok ordered ∧
        ∀ a : Nested Unit, ReadAs (ordered.getD want) a →
          ∃ b, reorderArray lib want a = .ok b ∧ Restored want a b := by
  rintro ⟨lib, h⟩
  obtain ⟨ordered, horder, hrestored⟩ :=
    h (.struct []) (.leaf []) false (by simp [KernelType.Named, NamedFields])
  obtain rfl : none = ordered := by simpa [orderType] using horder
  obtain ⟨b, hb, -⟩ := hrestored (.struct 1 [] none) (by simp [ReadAs, ReadFields])
  rw [reorderArray, reorderFields, Result.ok_bind, lib.structArray_ok] at hb
  exact hb.1 rfl

end

end DeltaSwamp.Arrow
