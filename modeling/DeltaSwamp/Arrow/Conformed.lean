import DeltaSwamp.Arrow.Grouped

/-!
# A conformed batch

What `conform_to_table` gives: the table's fields in their order, each bound to
the one column of its name.
-/

namespace DeltaSwamp.Arrow

/-- The data columns and the fields they are bound to: no name twice, every column a field, and
no column two. -/
structure Bound (lower : Text → Text) (fields : List Field) (names : List Text) : Prop where
  distinct : names.Pairwise fun a b => lower a ≠ lower b
  bound : ∀ n ∈ names, ∃ f ∈ fields, sameName n f.name = true
  once : fields.Pairwise fun f g =>
    ∀ n ∈ names, ¬ (sameName n f.name = true ∧ sameName n g.name = true)

section
variable {Cell : Type} (lib : Conforming Cell)

/-- The array as a `List`: itself, or a list of another kind cast to the same rows. -/
def AsList (array : Nested Leaf) (offsets : List Nat) (item : Column Leaf) (nulls : Nulls) : Prop :=
  array = .list .list offsets item nulls ∨
    ∃ kind offsets' item' nulls', array = .list kind offsets' item' nulls' ∧ kind ≠ .list ∧
      lib.cells (.list .list offsets item nulls) = lib.cells array

mutual

/-- The second array is the first with every struct's columns bound to the fields of the type. -/
def Conforms : KernelType → Nested Leaf → Nested Leaf → Prop
  | .struct fields, .struct length input nulls, given =>
    Bound lib.lower fields (input.map (·.name)) ∧
      ∃ columns, given = .struct length columns nulls ∧ ConformsFields fields input length columns
  | .array element _, array, given => ∃ offsets item nulls values,
      AsList lib array offsets item nulls ∧
        given = .list .list offsets { item with values := values } nulls ∧
        Conforms element item.values values
  | .map key value _, .map sorted offsets keys values _ nulls, given =>
    ∃ givenKeys givenValues, given = .map sorted offsets { keys with values := givenKeys }
        { values with values := givenValues } none nulls ∧
      Conforms key keys.values givenKeys ∧ Conforms value values.values givenValues
  | .primitive type, array, given => ∃ target cast, arrowOf lib.toKernels type = .ok target ∧
      castLeaf lib array target = .ok cast ∧ given = .leaf cast
  | .variant _, array, given => given = array
  | _, _, _ => False

/-- One column for each field: of the data column of its name, or NULL if there is none. -/
def ConformsFields : List Field → List (Column Leaf) → Nat → List (Column Leaf) → Prop
  | [], _, _, given => given = []
  | ⟨name, type, nullable, computed⟩ :: fields, input, length, column :: given =>
    column.name = name ∧
      ((∃ c ∈ input, sameName c.name name = true ∧ Conforms type c.values column.values) ∨
        ((∀ c ∈ input, sameName c.name name = false) ∧ nullable = true ∧ computed = [] ∧
          column.values.AllNull length)) ∧
      ConformsFields fields input length given
  | _ :: _, _, _, [] => False

end

end

theorem sameName_iff {a b : Text} :
    sameName a b = true ↔ a.map Char.toLower = b.map Char.toLower := by
  simp [sameName]

theorem sameName_refl (a : Text) : sameName a a = true := sameName_iff.mpr rfl

theorem sameName_join {a b n : Text} (ha : sameName a n = true) (hb : sameName b n = true) :
    sameName a b = true :=
  sameName_iff.mpr ((sameName_iff.mp ha).trans (sameName_iff.mp hb).symm)

section
variable {Cell : Type} {lib : Conforming Cell}

theorem firstDuplicate_none {seen names : List Text} (h : firstDuplicate lib seen names = none) :
    (∀ n ∈ names, lib.lower n ∉ seen) ∧
      names.Pairwise fun a b => lib.lower a ≠ lib.lower b := by
  induction names generalizing seen with
  | nil => simp
  | cons name names ih =>
    rw [firstDuplicate] at h
    split_ifs at h with hseen
    obtain ⟨hrest, hpairs⟩ := ih h
    constructor
    · intro n hn
      obtain rfl | hn := List.mem_cons.mp hn
      · exact hseen
      · exact fun hmem => hrest n hn (List.mem_cons_of_mem _ hmem)
    · refine List.Pairwise.cons (fun n hn heq => hrest n hn ?_) hpairs
      rw [heq]
      exact List.mem_cons_self

theorem refuseDuplicates_ok {input : List (Column Leaf)} {start : Text}
    (h : refuseDuplicates lib input start = .ok ()) :
    (input.map (·.name)).Pairwise fun a b => lib.lower a ≠ lib.lower b := by
  rw [refuseDuplicates] at h
  cases hfirst : firstDuplicate lib [] (input.map (·.name)) with
  | some name =>
    rw [hfirst] at h
    exact absurd h (by simp)
  | none => exact (firstDuplicate_none hfirst).2

theorem pairwise_sameName {names : List Text}
    (h : names.Pairwise fun a b => lib.lower a ≠ lib.lower b) :
    names.Pairwise fun a b => sameName a b = false := by
  refine h.imp fun {a b} hne => ?_
  rw [← Bool.not_eq_true]
  exact fun hsame => hne (lib.lower_sameName a b hsame)

/-- The column at `i` has the name, ignoring case. -/
def Matches (input : List (Column Leaf)) (name : Text) (i : Nat) : Prop :=
  ∃ c, input[i]? = some c ∧ sameName c.name name = true

variable {i : Nat}

theorem Matches.unique {input : List (Column Leaf)} {name : Text} {j : Nat}
    (hdistinct : (input.map (·.name)).Pairwise fun a b => sameName a b = false)
    (hi : Matches input name i) (hj : Matches input name j) : i = j := by
  obtain ⟨c, hc, hcname⟩ := hi
  obtain ⟨d, hd, hdname⟩ := hj
  rw [List.pairwise_map, List.pairwise_iff_getElem] at hdistinct
  obtain ⟨hil, rfl⟩ := List.getElem?_eq_some_iff.mp hc
  obtain ⟨hjl, rfl⟩ := List.getElem?_eq_some_iff.mp hd
  obtain hlt | heq | hgt := Nat.lt_trichotomy i j
  · have hne := hdistinct i j hil hjl hlt
    rw [sameName_join hcname hdname] at hne
    exact absurd hne (by decide)
  · exact heq
  · have hne := hdistinct j i hjl hil hgt
    rw [sameName_join hdname hcname] at hne
    exact absurd hne (by decide)

/-- The column and the index `match_index` finds. -/
def found (input : List (Column Leaf)) (name : Text) : Option (Nat × Column Leaf) :=
  (matchIndex input name).bind fun i => (input[i]?).map fun c => (i, c)

theorem matchIndex_some {input : List (Column Leaf)} {name : Text}
    (h : matchIndex input name = some i) : Matches input name i := by
  rw [matchIndex] at h
  cases hexact : input.findIdx? fun c => c.name = name with
  | some j =>
    rw [hexact] at h
    obtain rfl := Option.some.inj h
    obtain ⟨hj, hname, -⟩ := List.findIdx?_eq_some_iff_getElem.mp hexact
    refine ⟨input[j], List.getElem?_eq_getElem hj, ?_⟩
    rw [decide_eq_true_eq] at hname
    rw [hname]
    exact sameName_refl name
  | none =>
    rw [hexact] at h
    dsimp only at h
    split at h
    · next c j hfilter =>
      obtain rfl := Option.some.inj h
      have hmem : (c, j) ∈ input.zipIdx.filter fun c => sameName c.1.name name := by
        rw [hfilter]
        exact List.mem_singleton_self _
      obtain ⟨hzip, hname⟩ := List.mem_filter.mp hmem
      exact ⟨c, List.mk_mem_zipIdx_iff_getElem?.mp hzip, hname⟩
    · exact absurd h (by simp)

theorem matchIndex_none {input : List (Column Leaf)} {name : Text}
    (hdistinct : (input.map (·.name)).Pairwise fun a b => sameName a b = false)
    (h : matchIndex input name = none) : ∀ i, ¬ Matches input name i := by
  rintro i ⟨c, hc, hname⟩
  rw [matchIndex] at h
  cases hexact : input.findIdx? fun c => c.name = name with
  | some j =>
    rw [hexact] at h
    exact absurd h (by simp)
  | none =>
    rw [hexact] at h
    dsimp only at h
    have hmem : (c, i) ∈ input.zipIdx.filter fun c => sameName c.1.name name :=
      List.mem_filter.mpr ⟨List.mk_mem_zipIdx_iff_getElem?.mpr hc, hname⟩
    have hpairs : (input.zipIdx.filter fun c => sameName c.1.name name).Pairwise
        fun a b => sameName a.1.name b.1.name = false := by
      refine List.Pairwise.filter _ ?_
      rw [← List.zipIdx_map_fst 0 input, List.map_map, List.pairwise_map] at hdistinct
      exact hdistinct
    cases hfilter : input.zipIdx.filter fun c => sameName c.1.name name with
    | nil =>
      rw [hfilter] at hmem
      exact absurd hmem List.not_mem_nil
    | cons a rest =>
      cases rest with
      | nil =>
        obtain ⟨a, j⟩ := a
        rw [hfilter] at h
        exact absurd h (by simp)
      | cons b rest =>
        have hnames : ∀ x ∈ a :: b :: rest, sameName x.1.name name = true := by
          intro x hx
          rw [← hfilter] at hx
          exact (List.mem_filter.mp hx).2
        rw [hfilter] at hpairs
        have hne := (List.pairwise_cons.mp hpairs).1 b List.mem_cons_self
        rw [sameName_join (hnames a (by simp)) (hnames b (by simp))] at hne
        exact absurd hne (by decide)

variable {c : Column Leaf}

theorem found_some {input : List (Column Leaf)} {name : Text} (h : found input name = some (i, c)) :
    input[i]? = some c ∧ sameName c.name name = true := by
  obtain ⟨j, hj, hmap⟩ := Option.bind_eq_some_iff.mp h
  obtain ⟨d, hd, heq⟩ := Option.map_eq_some_iff.mp hmap
  rw [Prod.mk.injEq] at heq
  obtain ⟨rfl, rfl⟩ := heq
  obtain ⟨c, hc, hname⟩ := matchIndex_some hj
  rw [hd, Option.some.injEq] at hc
  exact ⟨hd, hc ▸ hname⟩

theorem found_none {input : List (Column Leaf)} {name : Text}
    (hdistinct : (input.map (·.name)).Pairwise fun a b => sameName a b = false)
    (h : found input name = none) : ∀ i, ¬ Matches input name i := by
  cases hmatch : matchIndex input name with
  | none => exact matchIndex_none hdistinct hmatch
  | some i =>
    obtain ⟨c, hc, -⟩ := matchIndex_some hmatch
    rw [found, hmatch, Option.bind_some, hc] at h
    exact absurd h (by simp)

theorem matches_of_mem {input : List (Column Leaf)} {name : Text} (hc : c ∈ input)
    (hname : sameName c.name name = true) : ∃ i, Matches input name i := by
  obtain ⟨i, hi⟩ := List.mem_iff_getElem?.mp hc
  exact ⟨i, c, hi, hname⟩

/-- What the loop has done when it ends: each field has its column, and which are used. -/
structure Looped (lib : Conforming Cell) (fields : List Field) (input : List (Column Leaf))
    (length : Nat) (used : List Nat) (given : List (Column Leaf)) (used' : List Nat) : Prop where
  conforms : ConformsFields lib fields input length given
  unused : ∀ f ∈ fields, ∀ i ∈ used, ¬ Matches input f.name i
  used : ∀ i ∈ used', i ∈ used ∨ ∃ f ∈ fields, Matches input f.name i
  once : fields.Pairwise fun f g => ∀ i, ¬ (Matches input f.name i ∧ Matches input g.name i)

theorem Looped.bound {fields : List Field} {input given : List (Column Leaf)} {length : Nat}
    {start : Text} {used' : List Nat} (h : Looped lib fields input length [] given used')
    (hdistinct : (input.map (·.name)).Pairwise fun a b => lib.lower a ≠ lib.lower b)
    (hextra : refuseExtra input start used' = .ok ()) :
    Bound lib.lower fields (input.map (·.name)) := by
  refine ⟨hdistinct, ?_, ?_⟩
  · intro n hn
    obtain ⟨c, hc, rfl⟩ := List.mem_map.mp hn
    obtain ⟨i, hi⟩ := List.mem_iff_getElem?.mp hc
    have hused : i ∈ used' := by
      rw [refuseExtra] at hextra
      split_ifs at hextra with hempty
      rw [List.isEmpty_iff, List.filter_eq_nil_iff] at hempty
      simpa using hempty (c, i) (List.mk_mem_zipIdx_iff_getElem?.mpr hi)
    obtain hnone | ⟨f, hf, d, hd, hname⟩ := h.used i hused
    · exact absurd hnone List.not_mem_nil
    · rw [hi, Option.some.injEq] at hd
      exact ⟨f, hf, hd ▸ hname⟩
  · refine h.once.imp fun {f g} hfg n hn hboth => ?_
    obtain ⟨c, hc, rfl⟩ := List.mem_map.mp hn
    obtain ⟨i, hi⟩ := List.mem_iff_getElem?.mp hc
    exact hfg i ⟨⟨c, hi, hboth.1⟩, ⟨c, hi, hboth.2⟩⟩

section
variable {name : Text} {type : KernelType} {nullable : Bool} {computed : List ComputedKey}
  {fields : List Field} {input rest : List (Column Leaf)} {length : Nat} {used used' : List Nat}
  {column : Column Leaf}

theorem Looped.found {i : Nat} {c : Column Leaf}
    (hloop : Looped lib fields input length (used ++ [i]) rest used')
    (hdistinct : (input.map (·.name)).Pairwise fun a b => sameName a b = false)
    (hcolumn : input[i]? = some c) (hname : sameName c.name name = true) (hunused : i ∉ used)
    (hgiven : column.name = name) (hvalues : Conforms lib type c.values column.values) :
    Looped lib (⟨name, type, nullable, computed⟩ :: fields) input length used (column :: rest)
      used' := by
  have hmatch : Matches input name i := ⟨c, hcolumn, hname⟩
  refine ⟨?_, ?_, ?_, ?_⟩
  · rw [ConformsFields]
    exact ⟨hgiven, .inl ⟨c, List.mem_of_getElem? hcolumn, hname, hvalues⟩, hloop.conforms⟩
  · intro g hg j hj hmatches
    obtain rfl | hg := List.mem_cons.mp hg
    · exact hunused (hmatch.unique hdistinct hmatches ▸ hj)
    · exact hloop.unused g hg j (List.mem_append_left _ hj) hmatches
  · intro j hj
    obtain hj | ⟨g, hg, hmatches⟩ := hloop.used j hj
    · obtain hj | hj := List.mem_append.mp hj
      · exact .inl hj
      · rw [List.mem_singleton.mp hj]
        exact .inr ⟨_, List.mem_cons_self, hmatch⟩
    · exact .inr ⟨g, List.mem_cons_of_mem _ hg, hmatches⟩
  · refine List.Pairwise.cons (fun g hg j hboth => ?_) hloop.once
    have hij := hmatch.unique hdistinct hboth.1
    exact hloop.unused g hg i (by simp) (hij ▸ hboth.2)

theorem Looped.missing (hloop : Looped lib fields input length used rest used')
    (hnone : ∀ i, ¬ Matches input name i) (hnullable : nullable = true) (hcomputed : computed = [])
    (hgiven : column.name = name) (hnull : column.values.AllNull length) :
    Looped lib (⟨name, type, nullable, computed⟩ :: fields) input length used (column :: rest)
      used' := by
  refine ⟨?_, ?_, ?_, ?_⟩
  · rw [ConformsFields]
    refine ⟨hgiven, .inr ⟨fun c hc => ?_, hnullable, hcomputed, hnull⟩, hloop.conforms⟩
    rw [← Bool.not_eq_true]
    intro hname
    obtain ⟨i, hi⟩ := matches_of_mem hc hname
    exact hnone i hi
  · intro g hg j hj hmatches
    obtain rfl | hg := List.mem_cons.mp hg
    · exact hnone j hmatches
    · exact hloop.unused g hg j hj hmatches
  · intro j hj
    obtain hj | ⟨g, hg, hmatches⟩ := hloop.used j hj
    · exact .inl hj
    · exact .inr ⟨g, List.mem_cons_of_mem _ hg, hmatches⟩
  · exact List.Pairwise.cons (fun g _ j hboth => hnone j hboth.1) hloop.once

end

theorem raised_ok {α : Type} {x : Except Text α} {a : α} : raised x = .ok a ↔ x = .ok a := by
  cases x <;> simp [raised]

variable {array : Nested Leaf}

theorem built_ok {given : Nested Leaf} (h : built lib array = .ok given) : given = array := by
  obtain ⟨_, -, h⟩ := Result.bind_eq_ok_iff.mp h
  rw [Result.pure_eq_ok_iff] at h
  exact h.symm

variable {path : Text}

theorem listParts_ok {list : Nested Leaf} {offsets : List Nat} {item : Column Leaf} {nulls : Nulls}
    (h : listParts path list = .ok (offsets, item, nulls)) :
    list = .list .list offsets item nulls := by
  rw [listParts.eq_def] at h
  split at h
  · rw [Except.ok.injEq, Prod.mk.injEq, Prod.mk.injEq] at h
    obtain ⟨rfl, rfl, rfl⟩ := h
    rfl
  · exact absurd h (by simp)

theorem castToList_ok {offsets : List Nat} {item : Column Leaf} {nulls : Nulls}
    (h : castToList lib array path = .ok (.list .list offsets item nulls)) :
    AsList lib array offsets item nulls := by
  cases array with
  | list kind offsets' item' nulls' =>
    rw [castToList] at h
    split_ifs at h with hkind
    · exact .inl (Except.ok.inj h)
    · exact .inr ⟨kind, offsets', item', nulls', rfl, hkind,
        lib.castList_cells _ _ (raised_ok.mp h)⟩
  | leaf | struct | map => exact absurd h (by simp [castToList])

theorem conformLeaf_ok {type : Primitive} {given : Nested Leaf}
    (h : conformLeaf lib type array path = .ok given) :
    ∃ target cast, arrowOf lib.toKernels type = .ok target ∧
      castLeaf lib array target = .ok cast ∧ given = .leaf cast := by
  obtain ⟨target, htarget, h⟩ := Result.bind_eq_ok_iff.mp h
  cases hcast : castLeaf lib array target with
  | error e =>
    rw [hcast] at h
    exact absurd h (by simp [throw, throwThe, MonadExceptOf.throw])
  | ok cast =>
    rw [hcast] at h
    exact ⟨target, cast, raised_ok.mp htarget, hcast, (Result.pure_eq_ok_iff.mp h).symm⟩

/-- What conforming gives, by induction on the type. -/
theorem conformArray_ok :
    (∀ (t : KernelType) (array given : Nested Leaf) (path : Text),
      conformArray lib t array path = .ok given → Conforms lib t array given) ∧
    ∀ (fields : List Field) (input given : List (Column Leaf)) (length : Nat) (start : Text)
      (used used' : List Nat),
      (input.map (·.name)).Pairwise (fun a b => sameName a b = false) →
      conformEach lib fields input length start used = .ok (given, used') →
      Looped lib fields input length used given used' := by
  refine KernelType.induct ?_ ?_ ?_ ?_ ?_ ?_ ?_
  · intro type array given path h
    rw [conformArray] at h
    rw [Conforms]
    exact conformLeaf_ok h
  · intro fields ih array given path h
    cases array with
    | struct length input nulls =>
      rw [conformArray] at h
      obtain ⟨_, hduplicates, h⟩ := Result.bind_eq_ok_iff.mp h
      obtain ⟨⟨columns, used⟩, hloop, h⟩ := Result.bind_eq_ok_iff.mp h
      obtain ⟨_, hextra, h⟩ := Result.bind_eq_ok_iff.mp h
      have hdistinct := refuseDuplicates_ok hduplicates
      have hlooped :=
        ih input columns length _ [] used (pairwise_sameName hdistinct) hloop
      rw [Conforms]
      refine ⟨hlooped.bound hdistinct hextra, columns, ?_, hlooped.conforms⟩
      split_ifs at h with hempty
      · rw [List.isEmpty_iff.mp hempty]
        exact (Result.pure_eq_ok_iff.mp h).symm
      · exact built_ok h
    | leaf | list | map => exact absurd h (by simp [conformArray])
  · intro fields _ array given path h
    rw [conformArray, Except.ok.injEq] at h
    rw [Conforms, h]
  · intro element b ih array given path h
    rw [conformArray] at h
    obtain ⟨list, hlist, h⟩ := Result.bind_eq_ok_iff.mp h
    obtain ⟨⟨offsets, item, nulls⟩, hparts, h⟩ := Result.bind_eq_ok_iff.mp h
    obtain ⟨values, hvalues, h⟩ := Result.bind_eq_ok_iff.mp h
    rw [listParts_ok hparts] at hlist
    rw [Conforms]
    exact ⟨offsets, item, nulls, values, castToList_ok hlist, built_ok h, ih _ _ _ hvalues⟩
  · intro key value b ihk ihv array given path h
    cases array with
    | map sorted offsets keys values entryNulls nulls =>
      rw [conformArray] at h
      obtain ⟨givenKeys, hkeys, h⟩ := Result.bind_eq_ok_iff.mp h
      obtain ⟨givenValues, hvalues, h⟩ := Result.bind_eq_ok_iff.mp h
      rw [Conforms]
      exact ⟨givenKeys, givenValues, built_ok h, ihk _ _ _ hkeys, ihv _ _ _ hvalues⟩
    | leaf | struct | list => exact absurd h (by simp [conformArray])
  · intro input given length start used used' _ h
    rw [conformEach, Except.ok.injEq, Prod.mk.injEq] at h
    obtain ⟨rfl, rfl⟩ := h
    exact ⟨by rw [ConformsFields], by simp, fun i hi => .inl hi, List.Pairwise.nil⟩
  · intro f fields ihf ihfs input given length start used used' hdistinct h
    obtain ⟨name, type, nullable, computed⟩ := f
    rw [conformEach] at h
    cases hfound : (matchIndex input name).bind fun i => (input[i]?).map fun c => (i, c) with
    | some entry =>
      obtain ⟨i, column⟩ := entry
      obtain ⟨hcolumn, hname⟩ := found_some hfound
      rw [hfound] at h
      dsimp only at h
      split_ifs at h with hused
      obtain ⟨values, hvalues, h⟩ := Result.bind_eq_ok_iff.mp h
      obtain ⟨⟨rest, used''⟩, hrest, h⟩ := Result.bind_eq_ok_iff.mp h
      rw [Result.pure_eq_ok_iff, Prod.mk.injEq] at h
      obtain ⟨rfl, rfl⟩ := h
      have hloop := ihfs input rest length start _ _ hdistinct hrest
      exact hloop.found hdistinct hcolumn hname hused rfl (ihf _ _ _ hvalues)
    | none =>
      have hnone := found_none hdistinct hfound
      rw [hfound] at h
      dsimp only at h
      split_ifs at h with hfill
      obtain ⟨values, hvalues, h⟩ := Result.bind_eq_ok_iff.mp h
      obtain ⟨⟨rest, used''⟩, hrest, h⟩ := Result.bind_eq_ok_iff.mp h
      rw [Result.pure_eq_ok_iff, Prod.mk.injEq] at h
      obtain ⟨rfl, rfl⟩ := h
      have hloop := ihfs input rest length start _ _ hdistinct hrest
      simp only [hasComputedValue, Bool.and_eq_true, Bool.not_not, List.isEmpty_iff] at hfill
      exact hloop.missing hnone hfill.1 hfill.2 rfl
        (lib.nullArray_null _ _ _ (raised_ok.mp hvalues))

theorem markNulls_name {schema : List Field} {partitionColumns : List Text} {d : Column Leaf}
    (h : markNulls lib schema partitionColumns c = .ok d) : d.name = c.name := by
  rw [markNulls] at h
  split_ifs at h
  · rw [Except.ok.inj h]
  · split at h
    · rw [Except.ok.inj h]
    · split at h
      · obtain ⟨_, -, h⟩ := Result.bind_eq_ok_iff.mp h
        rw [← Result.pure_eq_ok_iff.mp h]
      · obtain ⟨_, -, h⟩ := Result.bind_eq_ok_iff.mp h
        rw [← Result.pure_eq_ok_iff.mp h]
      · rw [Except.ok.inj h]

/-- A conformed batch has the rows of the data and the table's fields, each bound by name at every
level, once NULL markers are read in the partition columns. -/
theorem conform_binds {batch given : Batch} {schema : List Field} {partitionColumns : List Text}
    (h : conformToTable lib batch schema partitionColumns = .ok given) :
    given.rows = batch.rows ∧
      (∀ p ∈ partitionColumns, ∃ c ∈ batch.columns, sameName c.name p = true) ∧
      Bound lib.lower schema (batch.columns.map (·.name)) ∧
      ∃ input, batch.columns.mapM (markNulls lib schema partitionColumns) = .ok input ∧
        ConformsFields lib schema input batch.rows given.columns := by
  rw [conformToTable] at h
  cases hmissing : partitionColumns.find? fun name =>
      !batch.columns.any fun c => sameName c.name name with
  | some name =>
    rw [hmissing] at h
    exact absurd h (by simp [throw, throwThe, MonadExceptOf.throw])
  | none =>
    rw [hmissing] at h
    obtain ⟨input, hinput, h⟩ := Result.bind_eq_ok_iff.mp h
    obtain ⟨_, hduplicates, h⟩ := Result.bind_eq_ok_iff.mp h
    obtain ⟨⟨columns, used⟩, hloop, h⟩ := Result.bind_eq_ok_iff.mp h
    obtain ⟨_, hextra, h⟩ := Result.bind_eq_ok_iff.mp h
    obtain ⟨_, -, h⟩ := Result.bind_eq_ok_iff.mp h
    rw [Result.pure_eq_ok_iff] at h
    subst h
    have hdistinct := refuseDuplicates_ok hduplicates
    have hlooped := conformArray_ok.2 schema input columns batch.rows [] [] used
      (pairwise_sameName hdistinct) hloop
    have hbound := hlooped.bound hdistinct hextra
    rw [Result.map_eq_of_mapM_ok (fun c d hcd => markNulls_name hcd) hinput] at hbound
    refine ⟨rfl, fun p hp => ?_, hbound, input, hinput, hlooped.conforms⟩
    simpa using List.find?_eq_none.mp hmissing p hp

end

/-- Arrow for plain arrays, with no lists. -/
def plainArrays : Conforming (Option Raw) where
  toKernels := booleans
  lower text := text.map Char.toLower
  lower_sameName _ _ h := sameName_iff.mp h
  nullArray type length := do
    match type with
    | .primitive type =>
      return .leaf (.plain (← arrowOf booleans type) (List.replicate length none))
    | _ => throw "unsupported".toList
  nullArray_null type length array h := by
    cases type with
    | primitive type =>
      obtain ⟨target, -, h⟩ := Result.bind_eq_ok_iff.mp h
      rw [← Result.pure_eq_ok_iff.mp h]
      rfl
    | struct | variant | array | map =>
      exact absurd h (by simp [throw, throwThe, MonadExceptOf.throw])
  castList _ := .error "unsupported".toList
  castList_cells _ _ h := absurd h (by simp)
  checkArray _ := .ok ()
  checkBatch _ := .ok ()

/-- The three rows for a table of another order and one more field. -/
def wider : List Field :=
  [⟨"X".toList, .primitive .long, true, []⟩, ⟨"y".toList, .primitive .date, true, []⟩,
    ⟨"p".toList, .primitive .boolean, true, []⟩]

theorem conform_binds_wider : ∃ given,
    conformToTable plainArrays threeRows wider ["P".toList] = .ok given ∧
      given.rows = threeRows.rows ∧
      (∀ p ∈ ["P".toList], ∃ c ∈ threeRows.columns, sameName c.name p = true) ∧
      Bound plainArrays.lower wider (threeRows.columns.map (·.name)) ∧
      ∃ input, threeRows.columns.mapM (markNulls plainArrays wider ["P".toList]) = .ok input ∧
        ConformsFields plainArrays wider input threeRows.rows given.columns :=
  ⟨_, rfl, conform_binds rfl⟩

/-- An empty text in a partition column of numbers is NULL. -/
theorem empty_text_null :
    ¬ ∀ (lib : Conforming (Option Raw)) (batch given : Batch) (schema : List Field)
      (partitionColumns : List Text),
      conformToTable lib batch schema partitionColumns = .ok given →
      ConformsFields lib schema batch.columns batch.rows given.columns := by
  intro h
  have hnull := h plainArrays
    { columns := [⟨"p".toList, true, .leaf (.plain (.text .utf8) [some (.text [])])⟩], rows := 1 }
    _ [⟨"p".toList, .primitive .integer, true, []⟩] ["p".toList] rfl
  rw [ConformsFields] at hnull
  obtain ⟨-, ⟨c, hc, -, hconforms⟩ | ⟨hnone, -⟩, -⟩ := hnull
  · rw [List.mem_singleton] at hc
    subst hc
    rw [Conforms] at hconforms
    obtain ⟨target, cast, htarget, hcast, -⟩ := hconforms
    obtain rfl := Except.ok.inj htarget
    have hrefused : castLeaf plainArrays (.leaf (.plain (.text .utf8) [some (.text [])]))
        (.int true 32) = .error (.cast "unsupported".toList) := rfl
    exact absurd (hrefused.symm.trans hcast) (by simp)
  · exact absurd (hnone _ (List.mem_singleton_self _)) (by decide)

end DeltaSwamp.Arrow
