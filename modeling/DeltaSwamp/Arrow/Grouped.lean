import DeltaSwamp.Arrow.Lossless
import DeltaSwamp.Arrow.Split

/-!
# Groups are the rows

The groups of a split batch share its rows out by their partition values.
-/

namespace DeltaSwamp.Arrow

open List

/-- The rows seen so far, by their keys. -/
structure Grouped (keyOf : Nat → RowKey) (seen : List Nat) (g : Grouping) : Prop where
  nodup : g.order.Nodup
  keys : ∀ key, key ∈ g.order ↔ ∃ row ∈ seen, keyOf row = key
  groups : ∀ key, g.groups.get key =
    if key ∈ g.order then some (seen.filter fun row => keyOf row = key) else none

/-- The row joins the group of its key, or begins one. -/
theorem Grouped.push {keyOf : Nat → RowKey} {seen : List Nat} {g : Grouping}
    (h : Grouped keyOf seen g) (row : Nat) :
    Grouped keyOf (seen ++ [row]) (g.push (keyOf row) row) := by
  have hfilter : ∀ key, (seen ++ [row]).filter (fun r => keyOf r = key) =
      seen.filter (fun r => keyOf r = key) ++ if keyOf row = key then [row] else [] := by
    intro key
    rw [filter_append, filter_singleton]
    simp
  have hrow := h.groups (keyOf row)
  rw [Grouping.push]
  by_cases hseen : keyOf row ∈ g.order
  · rw [if_pos hseen] at hrow
    rw [hrow]
    refine ⟨h.nodup, fun key => ?_, fun key => ?_⟩
    · rw [h.keys]
      constructor
      · rintro ⟨r, hr, hkey⟩
        exact ⟨r, mem_append_left _ hr, hkey⟩
      · rintro ⟨r, hr, rfl⟩
        obtain hr | hr := mem_append.mp hr
        · exact ⟨r, hr, rfl⟩
        · obtain rfl := mem_singleton.mp hr
          exact (h.keys _).mp hseen
    · dsimp only
      rw [Dict.get_set, hfilter]
      by_cases hkey : key = keyOf row
      · subst hkey
        simp [hseen]
      · rw [if_neg hkey, if_neg (Ne.symm hkey), append_nil, h.groups]
  · rw [if_neg hseen] at hrow
    rw [hrow]
    have hnone : ∀ r ∈ seen, keyOf r ≠ keyOf row := fun r hr hkey =>
      hseen ((h.keys _).mpr ⟨r, hr, hkey⟩)
    refine ⟨?_, fun key => ?_, fun key => ?_⟩
    · exact nodup_append.mpr ⟨h.nodup, nodup_singleton _, by
        rintro a ha b hb rfl
        exact hseen (mem_singleton.mp hb ▸ ha)⟩
    · simp only [mem_append, mem_singleton, h.keys]
      constructor
      · rintro (⟨r, hr, hkey⟩ | rfl)
        · exact ⟨r, .inl hr, hkey⟩
        · exact ⟨row, .inr rfl, rfl⟩
      · rintro ⟨r, hr | rfl, hkey⟩
        · exact .inl ⟨r, hr, hkey⟩
        · exact .inr hkey.symm
    · dsimp only
      rw [Dict.get_set, hfilter, h.groups]
      by_cases hkey : key = keyOf row
      · subst hkey
        have hempty : seen.filter (fun r => keyOf r = keyOf row) = [] := by
          rw [filter_eq_nil_iff]
          intro r hr
          simpa using hnone r hr
        simp [hempty]
      · rw [if_neg hkey, if_neg (Ne.symm hkey), append_nil]
        simp [hkey]

theorem Grouped.run {keyOf : Nat → RowKey} {rows seen : List Nat} {g g' : Grouping}
    (h : Grouped keyOf seen g) (hrun : groupRows keyOf rows g = .ok g') :
    Grouped keyOf (seen ++ rows) g' := by
  induction rows generalizing seen g with
  | nil =>
    rw [groupRows, Except.ok.injEq] at hrun
    rw [append_nil, ← hrun]
    exact h
  | cons row rows ih =>
    rw [groupRows] at hrun
    split_ifs at hrun
    have hrest := ih (h.push row) hrun
    rwa [append_assoc, singleton_append] at hrest

theorem makeGroups_each {G : Type} {make : List Nat → Except SplitError G} {order : List RowKey}
    {groups : Dict RowKey (List Nat)} {made : List G} (hnodup : order.Nodup)
    (h : makeGroups make order groups = .ok made) :
    List.Forall₂ (fun key g => make ((groups.get key).getD []) = .ok g) order made := by
  induction order generalizing groups made with
  | nil =>
    rw [makeGroups, Except.ok.injEq] at h
    exact h ▸ List.Forall₂.nil
  | cons key order ih =>
    rw [nodup_cons] at hnodup
    rw [makeGroups, Result.bind_eq_ok_iff] at h
    obtain ⟨group, hgroup, h⟩ := h
    obtain ⟨rest, hrest, h⟩ := Result.bind_eq_ok_iff.mp h
    rw [Result.pure_eq_ok_iff] at h
    subst h
    refine List.Forall₂.cons hgroup ?_
    have hrows : List.Forall₂ (fun k g => k ∈ order ∧
        make (((groups.pop key).get k).getD []) = .ok g) order rest :=
      (forall₂_and_left order rest).mpr ⟨fun k hk => hk, ih hnodup.2 hrest⟩
    refine hrows.imp fun k g hk => ?_
    have hne : k ≠ key := fun heq => hnodup.1 (heq ▸ hk.1)
    have hmade := hk.2
    rwa [Dict.get_pop, if_neg hne] at hmade

variable {array : Leaf} {row : Nat}

theorem scalarAt_eq {type : Primitive} {s : Scalar} (h : scalarAt array row type = .ok s) :
    s = (array.slot row).elim (.null type) (.value type) := by
  rw [scalarAt.eq_def] at h
  split at h
  · next hslot => simpa [hslot] using h.symm
  · next hslot =>
    split_ifs at h
    simpa [hslot] using h.symm
  · exact absurd h (by simp)
  · rename_i hslot _ _
    simpa [hslot] using h.symm

theorem scalarAt_congr {row' : Nat} (type : Primitive) (h : array.slot row = array.slot row') :
    scalarAt array row type = scalarAt array row' type := by
  rw [scalarAt.eq_def, scalarAt.eq_def, h]

theorem slot_eq_of_scalarAt {row' : Nat} {type : Primitive} {s : Scalar}
    (h : scalarAt array row type = .ok s) (h' : scalarAt array row' type = .ok s) :
    array.slot row = array.slot row' := by
  have heq := (scalarAt_eq h).symm.trans (scalarAt_eq h')
  cases hrow : array.slot row <;> cases hrow' : array.slot row' <;> simp_all

theorem rowValues_get {located : List Located} {values values' : Dict Text Scalar}
    (hnames : ∀ l ∈ located, ∀ l' ∈ located, l.name = l'.name → l = l')
    (h : rowValues row located values = .ok values') :
    (∀ l ∈ located, ∃ s, scalarAt l.array row l.type = .ok s ∧ values'.get l.name = some s) ∧
      ∀ name, name ∉ located.map (·.name) → values'.get name = values.get name := by
  induction located generalizing values with
  | nil =>
    rw [rowValues, Except.ok.injEq] at h
    exact ⟨by simp, fun name _ => by rw [h]⟩
  | cons l located ih =>
    rw [rowValues, Result.bind_eq_ok_iff] at h
    obtain ⟨scalar, hscalar, h⟩ := h
    obtain ⟨hget, hother⟩ := ih (fun a ha b hb => hnames a (mem_cons_of_mem _ ha) b
      (mem_cons_of_mem _ hb)) h
    constructor
    · intro a ha
      obtain rfl | ha := mem_cons.mp ha
      · by_cases hagain : a.name ∈ located.map (·.name)
        · obtain ⟨b, hb, hname⟩ := mem_map.mp hagain
          have hsame := hnames b (mem_cons_of_mem _ hb) a mem_cons_self hname
          exact hsame ▸ hget b hb
        · refine ⟨scalar, hscalar, ?_⟩
          rw [hother a.name hagain, Dict.get_set, if_pos rfl]
      · exact hget a ha
    · intro name hname
      rw [map_cons, mem_cons, not_or] at hname
      rw [hother name hname.2, Dict.get_set, if_neg hname.1]

section
variable {Cell : Type} {lib : Kernels Cell}

variable {batch : Batch} {schema : List Field}

theorem locate_name {name : Text} {l : Located} (h : locate lib batch schema name = .ok l) :
    l.name = name := by
  rw [locate] at h
  split at h
  · exact absurd h (by simp)
  · split at h
    · exact absurd h (by simp)
    · split at h
      · split at h
        · exact absurd h (by simp)
        · split at h
          · exact absurd h (by simp)
          · obtain rfl := Except.ok.inj h
            rfl
      · exact absurd h (by simp)

theorem nullPartitionMarkers_valid {array : Leaf} (h : array.Valid) (target : Plain) :
    (nullPartitionMarkers array target).Valid := by
  rw [nullPartitionMarkers.eq_def]
  split
  · split_ifs with hkeep
    · exact h
    · intro v hv
      obtain ⟨slot, hslot, heq⟩ := mem_map.mp hv
      split_ifs at heq with hmarker
      subst heq
      have hholds := h v hslot
      cases v with
      | text t => trivial
      | bool | int | float | bytes => exact hholds.elim
  · exact h

theorem castPartition_holds {array : Nested Leaf} {target : Plain} {cast : Leaf}
    (hvalid : ∀ leaf, array = .leaf leaf → leaf.Valid)
    (h : castPartition lib array target = .ok cast) :
    ∀ slot ∈ cast.logical, SlotHolds cast.type slot := by
  cases array with
  | leaf leaf =>
    have hleaf := nullPartitionMarkers_valid (hvalid leaf rfl) target
    obtain ⟨htype, rfl⟩ | ⟨hmade, -⟩ := losslessCast_ok h
    · intro slot hslot v hv
      exact hleaf.holds (hv ▸ hslot)
    · obtain ⟨htype, hrows⟩ := castArray_logical hmade
      have hall : List.Forall₂ (fun b a => SlotHolds cast.type b ∧ True) cast.logical
          (nullPartitionMarkers leaf target).logical := by
        refine List.Forall₂.flip (hrows.imp fun a b hab => ⟨fun v hv => ?_, trivial⟩)
        obtain ⟨-, hnone⟩ | ⟨v', w, -, hw, hcast⟩ := castSlot_ok.mp hab
        · exact absurd (hnone ▸ hv) (Option.some_ne_none v).symm
        · rw [htype, ← Option.some.inj (hw.symm.trans hv)]
          exact lib.cast_holds _ _ _ _ hcast
      exact ((forall₂_and_left _ _).mp hall).1
  | struct | list | map => exact lib.castNested_holds _ _ _ h

theorem locate_holds {name : Text} {l : Located} (hbatch : batch.Valid)
    (h : locate lib batch schema name = .ok l) (row : Nat) :
    SlotHolds l.array.type (l.array.slot row) := by
  rw [locate] at h
  split at h
  · exact absurd h (by simp)
  · split at h
    · exact absurd h (by simp)
    · split at h
      · next column _ hcolumn =>
        split at h
        · exact absurd h (by simp)
        · split at h
          · exact absurd h (by simp)
          · next hcast =>
            obtain rfl := Except.ok.inj h
            intro v hv
            rw [Leaf.slot, Option.join_eq_some_iff] at hv
            exact castPartition_holds (hbatch column (mem_of_getElem? hcolumn)) hcast _
              (mem_of_getElem? hv) v rfl
      · exact absurd h (by simp)

variable {located : List Located}

theorem located_names {names : List Text} (h : names.mapM (locate lib batch schema) = .ok located) :
    ∀ l ∈ located, ∀ l' ∈ located, l.name = l'.name → l = l' := by
  intro l hl l' hl' hname
  obtain ⟨name, -, hlocate⟩ := (Result.mem_of_mapM_ok h l).mp hl
  obtain ⟨name', -, hlocate'⟩ := (Result.mem_of_mapM_ok h l').mp hl'
  rw [locate_name hlocate, locate_name hlocate'] at hname
  subst hname
  rw [hlocate, Except.ok.injEq] at hlocate'
  exact hlocate'

theorem liftArrow_ok {α : Type} {x : Except Text α} {a : α} :
    liftArrow x = .ok a ↔ x = .ok a := by
  cases x <;> simp [liftArrow]

/-- A group's columns are the data columns at its rows. -/
def TakenColumns (lib : Kernels Cell) (columns : List (Column Leaf)) (indices : List Nat)
    (group : PartitionGroup) : Prop :=
  group.data.rows = indices.length ∧
    List.Forall₂ (fun c d : Column Leaf => d.name = c.name ∧ d.nullable = c.nullable ∧
      lib.cells d.values = indices.filterMap fun i => (lib.cells c.values)[i]?)
      columns group.data.columns

theorem makeGroup_ok {columns : List (Column Leaf)} {indices : List Nat} {group : PartitionGroup}
    (h : makeGroup lib columns located indices = .ok group) :
    TakenColumns lib columns indices group ∧
      ∃ first rest, indices = first :: rest ∧ rowValues first located [] = .ok group.values := by
  cases indices with
  | nil => exact absurd h (by simp [makeGroup])
  | cons first rest =>
    rw [makeGroup] at h
    obtain ⟨values, hvalues, h⟩ := Result.bind_eq_ok_iff.mp h
    obtain ⟨taken, htaken, h⟩ := Result.bind_eq_ok_iff.mp h
    rw [Result.pure_eq_ok_iff] at h
    subst h
    refine ⟨⟨rfl, ?_⟩, first, rest, rfl, hvalues⟩
    refine (Result.forall₂_of_mapM_ok htaken).imp fun c d hcd => ?_
    obtain ⟨array, harray, hd⟩ := Result.bind_eq_ok_iff.mp hcd
    rw [Result.pure_eq_ok_iff] at hd
    subst hd
    exact ⟨rfl, rfl, lib.take_cells _ _ _ (liftArrow_ok.mp harray)⟩

/-- The row has the values of the group: in each partition column the same scalar. -/
def RowOf (located : List Located) (row : Nat) (group : PartitionGroup) : Prop :=
  ∀ l ∈ located, ∃ s, scalarAt l.array row l.type = .ok s ∧ group.values.get l.name = some s

theorem parts_perm {keyOf : Nat → RowKey} {order : List RowKey} {n : Nat} (hnodup : order.Nodup)
    (hkeys : ∀ key, key ∈ order ↔ ∃ row ∈ List.range n, keyOf row = key) :
    (order.map fun key => (List.range n).filter fun row => keyOf row = key).flatten.Perm
      (List.range n) := by
  rw [perm_ext_iff_of_nodup ?_ nodup_range]
  · intro row
    rw [mem_flatten]
    constructor
    · rintro ⟨rows, hrows, hrow⟩
      obtain ⟨key, -, rfl⟩ := mem_map.mp hrows
      exact (mem_filter.mp hrow).1
    · intro hrow
      refine ⟨_, mem_map.mpr ⟨keyOf row, (hkeys _).mpr ⟨row, hrow, rfl⟩, rfl⟩, ?_⟩
      simpa using hrow
  · rw [nodup_flatten]
    constructor
    · intro rows hrows
      obtain ⟨key, -, rfl⟩ := mem_map.mp hrows
      exact nodup_range.filter _
    · rw [pairwise_map]
      refine hnodup.imp fun {a b} hab row ha hb => hab ?_
      have hkeyA := (mem_filter.mp ha).2
      have hkeyB := (mem_filter.mp hb).2
      simp only [decide_eq_true_eq] at hkeyA hkeyB
      exact hkeyA.symm.trans hkeyB

theorem pairwise_of_forall₂ {α β : Type} {R : α → β → Prop} {S : α → α → Prop}
    {T : β → β → Prop} (himp : ∀ x x' y y', R x y → R x' y' → S x x' → T y y') {xs : List α}
    {ys : List β} (h : List.Forall₂ R xs ys) (hxs : xs.Pairwise S) : ys.Pairwise T := by
  induction h with
  | nil => exact List.Pairwise.nil
  | @cons x y xs ys hxy hrest ih =>
    rw [pairwise_cons] at hxs
    have hboth := (forall₂_and_left xs ys).mpr ⟨hxs.1, hrest⟩
    have hall : List.Forall₂ (fun y' x' => T y y' ∧ R x' y') ys xs :=
      List.Forall₂.flip (hboth.imp fun x' y' hx' => ⟨himp x x' y y' hxy hx'.2 hx'.1, hx'.2⟩)
    exact List.Pairwise.cons ((forall₂_and_left ys xs).mp hall).1 (ih hxs.2)

theorem encode_eq_iff {encode : List (Option Raw) → List UInt8}
    (hholds : ∀ l ∈ located, ∀ row, SlotHolds l.array.type (l.array.slot row))
    (h : lib.encode (located.map (·.array.type)) = .ok encode) (row row' : Nat) :
    encode (located.map (·.array.slot row)) = encode (located.map (·.array.slot row')) ↔
      ∀ l ∈ located, l.array.slot row = l.array.slot row' := by
  have hrow : ∀ row, List.Forall₂ SlotHolds (located.map (·.array.type))
      (located.map (·.array.slot row)) := by
    intro row
    rw [forall₂_map_left_iff, forall₂_map_right_iff, forall₂_same]
    exact fun l hl => hholds l hl row
  rw [← map_inj_left]
  constructor
  · exact lib.encode_injective _ _ h _ _ (hrow row) (hrow row')
  · intro hsame
    rw [hsame]

theorem group_rows {encode : List (Option Raw) → List UInt8}
    (hholds : ∀ l ∈ located, ∀ row, SlotHolds l.array.type (l.array.slot row))
    (hencode : lib.encode (located.map (·.array.type)) = .ok encode)
    (hnames : ∀ l ∈ located, ∀ l' ∈ located, l.name = l'.name → l = l')
    {columns : List (Column Leaf)} {n : Nat} {key : RowKey} {group : PartitionGroup}
    (h : makeGroup lib columns located ((List.range n).filter fun row =>
      encode (located.map (·.array.slot row)) = key) = .ok group) :
    ∀ row < n, encode (located.map (·.array.slot row)) = key ↔ RowOf located row group := by
  obtain ⟨-, first, rest, hrows, hvalues⟩ := makeGroup_ok h
  have hmem : first ∈ (List.range n).filter fun row =>
      encode (located.map (·.array.slot row)) = key := by
    rw [hrows]
    exact mem_cons_self
  have hfirst : encode (located.map (·.array.slot first)) = key := by
    simpa using (mem_filter.mp hmem).2
  have hget := (rowValues_get hnames hvalues).1
  intro row _
  rw [← hfirst, encode_eq_iff hholds hencode]
  constructor
  · intro hsame l hl
    obtain ⟨s, hs, hvalue⟩ := hget l hl
    exact ⟨s, scalarAt_congr l.type (hsame l hl) ▸ hs, hvalue⟩
  · intro hrow l hl
    obtain ⟨s, hs, hvalue⟩ := hget l hl
    obtain ⟨s', hs', hvalue'⟩ := hrow l hl
    rw [hvalue, Option.some.injEq] at hvalue'
    exact slot_eq_of_scalarAt hs' (hvalue' ▸ hs)

/-- Each group is the rows of its values, in their order, without the partition columns; no two
groups have the same values, and together they are all the rows, each once. -/
def SharesRows (lib : Kernels Cell) (batch : Batch) (names : List Text) (schema : List Field)
    (groups : List PartitionGroup) : Prop :=
  ∃ located, names.mapM (locate lib batch schema) = .ok located ∧
    groups.Pairwise (fun g g' => ∃ l ∈ located, g.values.get l.name ≠ g'.values.get l.name) ∧
    ∃ parts : List (List Nat), parts.flatten.Perm (List.range batch.rows) ∧
      List.Forall₂ (fun rows group => rows ≠ [] ∧ rows.Pairwise (· < ·) ∧
        (∀ row < batch.rows, row ∈ rows ↔ RowOf located row group) ∧
        TakenColumns lib (dataColumns batch located) rows group) parts groups

/-- Each group is the rows of its partition values, and the groups share all the rows. -/
theorem split_shares_rows {batch : Batch} {names : List Text} {schema : List Field}
    {groups : List PartitionGroup} (hbatch : batch.Valid)
    (h : splitByPartition lib batch names schema = .ok groups) :
    SharesRows lib batch names schema groups := by
  obtain ⟨located, hlocated, h⟩ := Result.bind_eq_ok_iff.mp h
  obtain ⟨encode, hencode, h⟩ := Result.bind_eq_ok_iff.mp h
  obtain ⟨grouping, hgrouping, h⟩ := Result.bind_eq_ok_iff.mp h
  rw [liftArrow_ok] at hencode
  refine ⟨located, hlocated, ?_⟩
  let keyOf := fun row => encode (located.map (·.array.slot row))
  have hstart : Grouped keyOf [] { order := [], groups := [] } :=
    ⟨nodup_nil, by simp, by simp [Dict.get]⟩
  have hgrouped := hstart.run hgrouping
  rw [nil_append] at hgrouped
  have hmade : List.Forall₂ (fun key group => makeGroup lib (dataColumns batch located) located
      ((List.range batch.rows).filter fun row => keyOf row = key) = .ok group)
      grouping.order groups := by
    have hrows := (forall₂_and_left grouping.order groups).mpr
      ⟨fun key hkey => hkey, makeGroups_each hgrouped.nodup h⟩
    refine hrows.imp fun key group hkey => ?_
    have hmake := hkey.2
    rwa [hgrouped.groups, if_pos hkey.1, Option.getD_some] at hmake
  have hnames := located_names hlocated
  have hholds : ∀ l ∈ located, ∀ row, SlotHolds l.array.type (l.array.slot row) := by
    intro l hl
    obtain ⟨name, -, hlocate⟩ := (Result.mem_of_mapM_ok hlocated l).mp hl
    exact locate_holds hbatch hlocate
  constructor
  · refine pairwise_of_forall₂ (fun key key' group group' hgroup hgroup' hne => ?_) hmade
      hgrouped.nodup
    by_contra hsame
    push Not at hsame
    obtain ⟨-, first, rest, hrows, -⟩ := makeGroup_ok hgroup'
    have hmem : first ∈ (List.range batch.rows).filter fun row => keyOf row = key' := by
      rw [hrows]
      exact mem_cons_self
    obtain ⟨hrange, hfirst⟩ := mem_filter.mp hmem
    rw [mem_range] at hrange
    rw [decide_eq_true_eq] at hfirst
    have hof := (group_rows hholds hencode hnames hgroup' first hrange).mp hfirst
    refine hne (((group_rows hholds hencode hnames hgroup first hrange).mpr ?_).symm.trans hfirst)
    intro l hl
    obtain ⟨s, hs, hvalue⟩ := hof l hl
    exact ⟨s, hs, (hsame l hl).trans hvalue⟩
  · refine ⟨_, parts_perm hgrouped.nodup hgrouped.keys, ?_⟩
    rw [forall₂_map_left_iff]
    refine hmade.imp fun key group hgroup => ?_
    obtain ⟨htaken, first, rest, hrows, -⟩ := makeGroup_ok hgroup
    refine ⟨by rw [hrows]; exact cons_ne_nil _ _, ?_, fun row hrow => ?_, htaken⟩
    · exact pairwise_lt_range.filter _
    · rw [← group_rows hholds hencode hnames hgroup row hrow]
      simp [hrow, keyOf]

end

def booleanTag : Option Raw → UInt8
  | none => 0
  | some (.bool false) => 1
  | some (.bool true) => 2
  | _ => 3

theorem booleanTag_injective {types : List ArrowType} (htypes : ∀ t ∈ types, t = .plain .boolean)
    {a b : List (Option Raw)} (ha : List.Forall₂ SlotHolds types a)
    (hb : List.Forall₂ SlotHolds types b) (h : a.map booleanTag = b.map booleanTag) : a = b := by
  induction ha generalizing b with
  | nil =>
    cases hb
    rfl
  | @cons t x types a hx _ ih =>
    cases hb with
    | @cons _ y _ b hy hrest =>
      obtain rfl := htypes t mem_cons_self
      rw [map_cons, map_cons, List.cons.injEq] at h
      have hslot : ∀ slot, SlotHolds (.plain .boolean) slot →
          slot = none ∨ slot = some (.bool false) ∨ slot = some (.bool true) := by
        intro slot hslot
        cases slot with
        | none => exact .inl rfl
        | some v =>
          have hv := hslot v rfl
          cases v with
          | bool b => cases b <;> simp
          | int | float | text | bytes => exact hv.elim
      have hxy : x = y := by
        obtain rfl | rfl | rfl := hslot x hx <;> obtain rfl | rfl | rfl := hslot y hy <;>
          first | rfl | exact absurd h.1 (by decide)
      rw [hxy, ih (fun u hu => htypes u (mem_cons_of_mem _ hu)) hrest h.2]

/-- Arrow for plain arrays, with boolean rows to group by. -/
def booleans : Kernels (Option Raw) where
  toCasts := doubles
  otherArrow _ := .error "unsupported".toList
  castNested _ _ := .error (.cast "unsupported".toList)
  castNested_holds _ _ _ h := absurd h (by simp)
  cells
    | .leaf array => array.logical
    | _ => []
  take
    | .leaf (.plain type slots), indices =>
      .ok (.leaf (.plain type (indices.filterMap fun i => slots[i]?)))
    | _, _ => .error "unsupported".toList
  take_cells array indices taken h := by
    split at h
    · rw [← Except.ok.inj h]
      rfl
    · exact absurd h (by simp)
  encode types :=
    if types.all (· = .plain .boolean) then .ok fun row => row.map booleanTag
    else .error "unsupported".toList
  encode_injective types f h a b ha hb hab := by
    split_ifs at h with hall
    rw [← Except.ok.inj h] at hab
    exact booleanTag_injective (by simpa using hall) ha hb hab

/-- Three rows, two of them of one partition. -/
def threeRows : Batch where
  columns := [⟨"p".toList, true,
      .leaf (.plain .boolean [some (.bool true), none, some (.bool true)])⟩,
    ⟨"x".toList, true, .leaf (.plain (.int true 64) [some (.int 1), some (.int 2), none])⟩]
  rows := 3

def byP : List Field :=
  [⟨"P".toList, .primitive .boolean, true, []⟩, ⟨"x".toList, .primitive .long, true, []⟩]

theorem threeRows_valid : threeRows.Valid := by
  intro c hc array harray
  simp only [threeRows, mem_cons, not_mem_nil, or_false] at hc
  obtain rfl | rfl := hc
  · obtain rfl := Nested.leaf.inj harray
    simp [Leaf.Valid, Plain.Holds]
  · obtain rfl := Nested.leaf.inj harray
    simp [Leaf.Valid, Plain.Holds]

theorem split_shares_rows_three : ∃ groups,
    splitByPartition booleans threeRows ["P".toList] byP = .ok groups ∧
      SharesRows booleans threeRows ["P".toList] byP groups :=
  ⟨_, rfl, split_shares_rows threeRows_valid rfl⟩

end DeltaSwamp.Arrow
