import DeltaSwamp.Metadata.Assign

/-!
# Names inside one struct

What `_check_names` and the duplicate checks of `add_columns` and
`merge_schema` establish: no struct has two fields of one name, letter case
aside. Names can then stand in for physical names when mapping is enabled.
-/

namespace DeltaSwamp.Metadata

open List

abbrev Spot := Position × String

def DataType.spots (t : DataType) : List Spot := (t.labels ⟨none, []⟩).map Label.spot

def fieldSpots (i : Nat) (fs : List Field) : List Spot :=
  (fieldLabels ⟨none, []⟩ i fs).map Label.spot

theorem labels_spots (t : DataType) (home : Home) : (t.labels home).map Label.spot = t.spots :=
  ((assign_spots fun name _ => name).1 t 0 home home).symm.trans
    ((assign_spots fun name _ => name).1 t 0 home ⟨none, []⟩)

theorem mem_spots {t : DataType} {s : Spot} (home : Home) :
    s ∈ t.spots ↔ ∃ l ∈ t.labels home, l.spot = s := by
  rw [← labels_spots t home, mem_map]

theorem spot_ne_nil {t : DataType} {s : Spot} (h : s ∈ t.spots) : s.1 ≠ [] := by
  obtain ⟨l, hl, rfl⟩ := mem_map.mp h
  exact position_ne_nil.1 t _ l hl

/-- The spots of something one step inside. -/
def Spot.under (s : Step) (spot : Spot) : Spot := (s :: spot.1, spot.2)

theorem spots_map_under (ls : List Label) (s : Step) :
    (ls.map (.under [s])).map Label.spot = (ls.map Label.spot).map (Spot.under s) := by
  rw [map_map, map_map]
  rfl

theorem spots_array (e : DataType) (b : Bool) :
    (DataType.array e b).spots = e.spots.map (Spot.under .element) := by
  rw [DataType.spots, DataType.labels, spots_map_under, labels_spots]

theorem spots_map (k v : DataType) (b : Bool) :
    (DataType.map k v b).spots =
      k.spots.map (Spot.under .key) ++ v.spots.map (Spot.under .value) := by
  rw [DataType.spots, DataType.labels, map_append, spots_map_under, spots_map_under,
    labels_spots, labels_spots]

theorem spots_struct (fs : List Field) : (DataType.struct fs).spots = fieldSpots 0 fs := rfl

theorem fieldSpots_cons (i : Nat) (f : Field) (fs : List Field) :
    fieldSpots i (f :: fs) =
      ([.field i], f.name) :: f.type.spots.map (Spot.under (.field i)) ++
        fieldSpots (i + 1) fs := by
  rw [fieldSpots, fieldLabels_cons, map_append, spots_map_under, FieldOf.labels,
    map_cons, labels_spots]
  rfl

theorem fieldSpots_append (i : Nat) (fs gs : List Field) :
    fieldSpots i (fs ++ gs) = fieldSpots i fs ++ fieldSpots (i + fs.length) gs := by
  rw [fieldSpots, fieldLabels_append, map_append]
  rfl

theorem mem_fieldSpots {fs : List Field} {s : Spot} :
    s ∈ (DataType.struct fs).spots ↔ ∃ (j : Nat) (f : Field), fs[j]? = some f ∧
      (s = ([.field j], f.name) ∨ ∃ s' ∈ f.type.spots, s = s'.under (.field j)) := by
  constructor
  · intro h
    obtain ⟨l, hl, rfl⟩ := mem_map.mp h
    rw [DataType.labels] at hl
    obtain ⟨j, f, l', hf, hl', rfl⟩ := labels_of_mem_fieldLabels hl
    rw [Nat.zero_add]
    apply Exists.intro j
    apply Exists.intro f
    apply And.intro hf
    rcases mem_cons.mp hl' with rfl | hl'
    · exact .inl rfl
    · exact .inr ⟨l'.spot, (mem_spots _).mpr ⟨l', hl', rfl⟩, rfl⟩
  · rintro ⟨j, f, hf, h⟩
    obtain ⟨as, bs, rfl, rfl⟩ := exists_split hf
    rw [spots_struct, fieldSpots_append, fieldSpots_cons, Nat.zero_add]
    apply mem_append_right
    apply mem_append_left
    rcases h with rfl | ⟨s', hs', rfl⟩
    · exact mem_cons_self
    · exact mem_cons_of_mem _ (mem_map_of_mem hs')

/-- No struct has two fields of one name, letter case aside, other than those
at the exempt positions. -/
def Separate (lower : String → String) (exempt : Position → Prop) (spots : List Spot) : Prop :=
  ∀ s ∈ spots, ∀ s' ∈ spots, s.1.dropLast = s'.1.dropLast → lower s.2 = lower s'.2 →
    ¬ exempt s.1.dropLast → s.1 = s'.1

def nowhere : Position → Prop := fun _ => False

section
variable {lower : String → String} {exempt exempt' : Position → Prop} {spots spots' : List Spot}

theorem Separate.mono (h : Separate lower exempt spots) (hsub : spots' ⊆ spots)
    (hexempt : ∀ p, exempt p → exempt' p) : Separate lower exempt' spots' :=
  fun s hs s' hs' hstruct hname hnot => h s (hsub hs) s' (hsub hs') hstruct hname fun hp =>
    hnot (hexempt _ hp)

theorem under_dropLast (s : Step) {spot : Spot} (h : spot.1 ≠ []) :
    (Spot.under s spot).1.dropLast = s :: spot.1.dropLast :=
  dropLast_cons_of_ne_nil h

theorem Separate.inside {s : Step} (h : Separate lower exempt (spots.map (Spot.under s)))
    (hne : ∀ spot ∈ spots, spot.1 ≠ []) : Separate lower (fun p => exempt (s :: p)) spots := by
  intro a ha b hb hstruct hname hnot
  have ha' : (Spot.under s a).1.dropLast = s :: a.1.dropLast := under_dropLast s (hne a ha)
  have hb' : (Spot.under s b).1.dropLast = s :: b.1.dropLast := under_dropLast s (hne b hb)
  have hsame := h _ (mem_map_of_mem ha) _ (mem_map_of_mem hb)
    (by rw [ha', hb', hstruct]) hname (by rw [ha']; exact hnot)
  exact (List.cons.inj hsame).2

theorem Separate.under {s : Step} (h : Separate lower (fun p => exempt (s :: p)) spots)
    (hne : ∀ spot ∈ spots, spot.1 ≠ []) : Separate lower exempt (spots.map (Spot.under s)) := by
  intro a ha b hb hstruct hname hnot
  obtain ⟨a, ha', rfl⟩ := mem_map.mp ha
  obtain ⟨b, hb', rfl⟩ := mem_map.mp hb
  rw [under_dropLast s (hne a ha')] at hstruct hnot
  rw [under_dropLast s (hne b hb')] at hstruct
  have hsame := h a ha' b hb' (List.cons.inj hstruct).2 hname hnot
  exact congrArg (s :: ·) hsame

theorem Separate.append (h : Separate lower exempt spots) (h' : Separate lower exempt spots')
    (happart : ∀ s ∈ spots, ∀ s' ∈ spots', s.1.dropLast = s'.1.dropLast →
      lower s.2 = lower s'.2 → exempt s.1.dropLast) :
    Separate lower exempt (spots ++ spots') := by
  intro a ha b hb hstruct hname hnot
  rcases mem_append.mp ha with ha | ha
  · rcases mem_append.mp hb with hb | hb
    · exact h a ha b hb hstruct hname hnot
    · exact absurd (happart a ha b hb hstruct hname) hnot
  · rcases mem_append.mp hb with hb | hb
    · exact absurd (hstruct ▸ happart b hb a ha hstruct.symm hname.symm) hnot
    · exact h' a ha b hb hstruct hname hnot

end

section
variable {lower : String → String} {exempt : Position → Prop} {fs : List Field}

theorem separate_struct
    (hnames : ¬ exempt [] → (fs.map fun f => lower f.name).Nodup)
    (htypes : ∀ i f, fs[i]? = some f →
      Separate lower (fun p => exempt (.field i :: p)) f.type.spots) :
    Separate lower exempt (DataType.struct fs).spots := by
  intro a ha b hb hstruct hname hnot
  obtain ⟨i, f, hf, ha⟩ := mem_fieldSpots.mp ha
  obtain ⟨j, g, hg, hb⟩ := mem_fieldSpots.mp hb
  rcases ha with rfl | ⟨a, ha', rfl⟩
  · rcases hb with rfl | ⟨b, hb', rfl⟩
    · have hindex : i = j := by
        obtain ⟨hi, rfl⟩ := List.getElem?_eq_some_iff.mp hf
        obtain ⟨hj, rfl⟩ := List.getElem?_eq_some_iff.mp hg
        have hi' : i < (fs.map fun f => lower f.name).length := by simpa using hi
        have hj' : j < (fs.map fun f => lower f.name).length := by simpa using hj
        have hsame : (fs.map fun f => lower f.name)[i] = (fs.map fun f => lower f.name)[j] := by
          rw [getElem_map, getElem_map]
          exact hname
        exact (List.Nodup.getElem_inj_iff (hnames hnot)).mp hsame
      rw [hindex]
    · rw [under_dropLast _ (spot_ne_nil hb')] at hstruct
      simp at hstruct
  · rw [under_dropLast _ (spot_ne_nil ha')] at hstruct hnot
    rcases hb with rfl | ⟨b, hb', rfl⟩
    · simp at hstruct
    · rw [under_dropLast _ (spot_ne_nil hb')] at hstruct
      obtain ⟨hindex, hinner⟩ := List.cons.inj hstruct
      cases hindex
      rw [hf] at hg
      cases hg
      have hsame := htypes i f hf a ha' b hb' hinner hname hnot
      exact congrArg (Step.field i :: ·) hsame

theorem Separate.type (h : Separate lower exempt (DataType.struct fs).spots) {i : Nat} {f : Field}
    (hf : fs[i]? = some f) : Separate lower (fun p => exempt (.field i :: p)) f.type.spots := by
  apply Separate.inside
  · apply h.mono
    · intro s hs
      obtain ⟨s', hs', rfl⟩ := mem_map.mp hs
      exact mem_fieldSpots.mpr ⟨i, f, hf, .inr ⟨s', hs', rfl⟩⟩
    · exact fun _ hp => hp
  · exact fun s hs => spot_ne_nil hs

theorem Separate.names (h : Separate lower exempt (DataType.struct fs).spots)
    (hnot : ¬ exempt []) : (fs.map fun f => lower f.name).Nodup := by
  rw [nodup_iff_getElem?_ne_getElem?]
  intro i j hij hj heq
  rw [length_map] at hj
  have hi : i < fs.length := by omega
  simp only [List.getElem?_map, List.getElem?_eq_getElem hi, List.getElem?_eq_getElem hj,
    Option.map_some, Option.some.injEq] at heq
  have hsame := h ([.field i], fs[i].name)
    (mem_fieldSpots.mpr ⟨i, fs[i], List.getElem?_eq_getElem hi, .inl rfl⟩)
    ([.field j], fs[j].name) (mem_fieldSpots.mpr ⟨j, fs[j], List.getElem?_eq_getElem hj, .inl rfl⟩)
    rfl heq hnot
  simp at hsame
  omega

end

section
variable (py : Python)

/-- Names that pass the check are separate at every level. -/
theorem separate_of_checkNames :
    (∀ (t : DataType) (columnMapping : Bool), checkTypeNames py columnMapping t = .ok () →
      Separate py.lower nowhere t.spots) ∧
    ∀ (fs : List Field) (columnMapping : Bool) (seen : List String),
      checkNames py columnMapping seen fs = .ok () →
      (∀ f ∈ fs, Separate py.lower nowhere f.type.spots) ∧
        (fs.map fun f => py.lower f.name).Nodup ∧ ∀ f ∈ fs, py.lower f.name ∉ seen := by
  refine DataType.induct
    (P := fun t => ∀ columnMapping : Bool, checkTypeNames py columnMapping t = .ok () →
      Separate py.lower nowhere t.spots)
    (Q := fun fs => ∀ (columnMapping : Bool) (seen : List String),
      checkNames py columnMapping seen fs = .ok () →
      (∀ f ∈ fs, Separate py.lower nowhere f.type.spots) ∧
        (fs.map fun f => py.lower f.name).Nodup ∧ ∀ f ∈ fs, py.lower f.name ∉ seen)
    ?_ ?_ ?_ ?_ ?_ ?_
  · intro name columnMapping _ s hs
    simp [DataType.spots, DataType.labels] at hs
  · intro fields ih columnMapping h
    rw [checkTypeNames] at h
    obtain ⟨htypes, hnames, -⟩ := ih columnMapping [] h
    exact separate_struct (fun _ => hnames) fun i f hf => htypes f (mem_of_getElem? hf)
  · intro e b ih columnMapping h
    rw [checkTypeNames] at h
    rw [spots_array]
    exact (ih columnMapping h).under fun s hs => spot_ne_nil hs
  · intro k v b ihk ihv columnMapping h
    rw [checkTypeNames] at h
    obtain ⟨⟨⟩, hk, hv⟩ := Result.bind_eq_ok_iff.mp h
    rw [spots_map]
    apply Separate.append
    · exact (ihk columnMapping hk).under fun s hs => spot_ne_nil hs
    · exact (ihv columnMapping hv).under fun s hs => spot_ne_nil hs
    · intro a ha b hb hstruct _
      obtain ⟨a, ha', rfl⟩ := mem_map.mp ha
      obtain ⟨b, hb', rfl⟩ := mem_map.mp hb
      rw [under_dropLast _ (spot_ne_nil ha'), under_dropLast _ (spot_ne_nil hb')] at hstruct
      simp at hstruct
  · intro columnMapping seen _
    simp
  · intro f fs iht ih columnMapping seen h
    rw [checkNames] at h
    simp only [Result.guard_eq_ok_iff, Result.bind_eq_ok_iff] at h
    obtain ⟨-, hseen, -, ⟨⟩, htype, hrest⟩ := h
    obtain ⟨htypes, hnames, hnew⟩ := ih columnMapping _ hrest
    refine ⟨?_, ?_, ?_⟩
    · simpa using ⟨iht columnMapping htype, htypes⟩
    · rw [map_cons, nodup_cons]
      refine ⟨fun hmem => ?_, hnames⟩
      obtain ⟨g, hg, heq⟩ := mem_map.mp hmem
      exact hnew g hg (heq ▸ mem_cons_self)
    · intro g hg
      rcases mem_cons.mp hg with rfl | hg
      · exact hseen
      · exact fun hmem => hnew g hg (mem_cons_of_mem _ hmem)

end

/-- What tells a field from its siblings in the data: the struct it is in and its physical name. -/
def Label.key (l : Label) : Home × Option Json := (l.home, l.physical)

/-- Whether a field is in `home`, or in a struct further inside whose way there leads through
a field with an id from `lo` up to `hi`. -/
def Within (home : Home) (lo hi : Int) (l : Label) : Prop :=
  (l.home.parent = home.parent ∧ home.inside <+: l.home.inside) ∨
    ∃ n, lo ≤ n ∧ n < hi ∧ l.home.parent = some (.int n)

section
variable (physical : String → Int → String)

/-- Every name's home is the one given, or an id of the assignment. -/
theorem assign_within :
    (∀ (t : DataType) (next : Int) (home : Home),
      ∀ l ∈ (assignType physical t next).1.labels home,
        Within home next (assignType physical t next).2 l) ∧
    ∀ (fs : List Field) (next : Int) (home : Home) (i : Nat),
      ∀ l ∈ fieldLabels home i (assignIds physical fs next).1,
        (l.home = home ∧ ∃ f ∈ fs, f.name = l.name) ∨
          ∃ n, next ≤ n ∧ n < (assignIds physical fs next).2 ∧ l.home.parent = some (.int n) := by
  refine DataType.induct
    (P := fun t => ∀ (next : Int) (home : Home), ∀ l ∈ (assignType physical t next).1.labels home,
      Within home next (assignType physical t next).2 l)
    (Q := fun fs => ∀ (next : Int) (home : Home) (i : Nat),
      ∀ l ∈ fieldLabels home i (assignIds physical fs next).1,
        (l.home = home ∧ ∃ f ∈ fs, f.name = l.name) ∨
          ∃ n, next ≤ n ∧ n < (assignIds physical fs next).2 ∧ l.home.parent = some (.int n))
    ?_ ?_ ?_ ?_ ?_ ?_
  · intro name next home l hl
    simp [assignType, DataType.labels] at hl
  · intro fields ih next home l hl
    rcases ih next home 0 l (by simpa [assignType, DataType.labels] using hl) with h | h
    · rw [Within, h.1]
      exact .inl ⟨rfl, prefix_refl _⟩
    · exact .inr h
  · intro e b ih next home l hl
    simp only [assignType, DataType.labels, mem_map] at hl
    obtain ⟨l', hl', rfl⟩ := hl
    rcases ih next (home.within .element) l' hl' with h | h
    · exact .inl ⟨h.1, (prefix_append _ _).trans h.2⟩
    · exact .inr h
  · intro k v b ihk ihv next home l hl
    have hkey := ((assign_numbered physical).1 k next home).le
    have hvalue := ((assign_numbered physical).1 v (assignType physical k next).2 home).le
    simp only [assignType, DataType.labels, mem_append, mem_map] at hl
    rcases hl with ⟨l', hl', rfl⟩ | ⟨l', hl', rfl⟩
    · rcases ihk next (home.within .key) l' hl' with h | ⟨n, hlo, hhi, h⟩
      · exact .inl ⟨h.1, (prefix_append _ _).trans h.2⟩
      · exact .inr ⟨n, hlo, hhi.trans_le hvalue, h⟩
    · rcases ihv _ (home.within .value) l' hl' with h | ⟨n, hlo, hhi, h⟩
      · exact .inl ⟨h.1, (prefix_append _ _).trans h.2⟩
      · exact .inr ⟨n, hkey.trans hlo, hhi, h⟩
  · intro next home i l hl
    simp [assignIds, fieldLabels] at hl
  · intro f fs iht ih next home i l hl
    have hinner := ((assign_numbered physical).1 f.type (next + 1) home).le
    have hrest := ((assign_numbered physical).2 fs
      (assignType physical f.type (next + 1)).2 home 0).le
    rw [assignIds_cons, fieldLabels_cons, assigned_labels] at hl
    rw [assignIds_cons]
    rcases mem_append.mp hl with hl | hl
    · obtain ⟨l', hl', rfl⟩ := mem_map.mp hl
      rcases mem_cons.mp hl' with rfl | hl'
      · exact .inl ⟨rfl, f, mem_cons_self, rfl⟩
      · right
        rcases iht (next + 1) _ l' hl' with h | ⟨n, hlo, hhi, h⟩
        · exact ⟨next, le_refl _, by dsimp only; omega, h.1⟩
        · exact ⟨n, by omega, by dsimp only; omega, h⟩
    · rcases ih _ home (i + 1) l hl with ⟨hhome, g, hg, hname⟩ | ⟨n, hlo, hhi, h⟩
      · exact .inl ⟨hhome, g, mem_cons_of_mem _ hg, hname⟩
      · exact .inr ⟨n, by omega, hhi, h⟩

end

/-- `lambda name: name`, the physical names of a table whose mapping is being enabled. -/
def logical : String → Int → String := fun name _ => name

theorem key_under (ls : List Label) (p : Position) :
    (ls.map (.under p)).map Label.key = ls.map Label.key := by
  rw [map_map]
  rfl

/-- Columns of separate names get keys of their own. -/
theorem assign_keys (lower : String → String) :
    (∀ (t : DataType) (next : Int) (home : Home),
      (∀ n, home.parent = some (.int n) → n < next) → Separate lower nowhere t.spots →
      (((assignType logical t next).1.labels home).map Label.key).Nodup) ∧
    ∀ (fs : List Field) (next : Int) (home : Home) (i : Nat),
      (∀ n, home.parent = some (.int n) → n < next) →
      (∀ f ∈ fs, Separate lower nowhere f.type.spots) → (fs.map fun f => lower f.name).Nodup →
      ((fieldLabels home i (assignIds logical fs next).1).map Label.key).Nodup := by
  refine DataType.induct
    (P := fun t => ∀ (next : Int) (home : Home),
      (∀ n, home.parent = some (.int n) → n < next) → Separate lower nowhere t.spots →
      (((assignType logical t next).1.labels home).map Label.key).Nodup)
    (Q := fun fs => ∀ (next : Int) (home : Home) (i : Nat),
      (∀ n, home.parent = some (.int n) → n < next) →
      (∀ f ∈ fs, Separate lower nowhere f.type.spots) → (fs.map fun f => lower f.name).Nodup →
      ((fieldLabels home i (assignIds logical fs next).1).map Label.key).Nodup)
    ?_ ?_ ?_ ?_ ?_ ?_
  · intro name next home _ _
    simp [assignType, DataType.labels]
  · intro fields ih next home hparent hsep
    rw [assignType, DataType.labels]
    apply ih next home 0 hparent
    · intro f hf
      obtain ⟨i, hi⟩ := mem_iff_getElem?.mp hf
      exact hsep.type hi
    · exact hsep.names id
  · intro e b ih next home hparent hsep
    rw [spots_array] at hsep
    rw [assignType, DataType.labels, key_under]
    exact ih next _ hparent (hsep.inside fun s hs => spot_ne_nil hs)
  · intro k v b ihk ihv next home hparent hsep
    rw [spots_map] at hsep
    have hle := ((assign_numbered logical).1 k next home).le
    have hparent' : ∀ n, home.parent = some (.int n) → n < (assignType logical k next).2 :=
      fun n hn => (hparent n hn).trans_le hle
    have hsepk := hsep.mono (subset_append_left _ _) fun _ hp => hp
    have hsepv := hsep.mono (subset_append_right _ _) fun _ hp => hp
    rw [assignType, DataType.labels, map_append, key_under, key_under, nodup_append']
    refine ⟨ihk next _ hparent (hsepk.inside fun s hs => spot_ne_nil hs),
      ihv _ _ hparent' (hsepv.inside fun s hs => spot_ne_nil hs), ?_⟩
    intro a ha hb
    obtain ⟨l, hl, rfl⟩ := mem_map.mp ha
    obtain ⟨l', hl', heq⟩ := mem_map.mp hb
    have hhome : l'.home = l.home := congrArg Prod.fst heq
    have hk := (assign_within logical).1 k next (home.within .key) l hl
    have hv := (assign_within logical).1 v _ (home.within .value) l' hl'
    rw [Within, hhome] at hv
    rcases hk with ⟨hk, hway⟩ | ⟨n, hlo, hhi, hk⟩
    · rcases hv with ⟨-, hway'⟩ | ⟨m, hlo', hhi', hv⟩
      · have hsame := prefix_of_prefix_length_le hway hway' (by simp [Home.within])
        simp [Home.within] at hsame
      · have hlt := hparent' m (hk.symm.trans hv)
        omega
    · rcases hv with ⟨hv, -⟩ | ⟨m, hlo', hhi', hv⟩
      · have hlt := hparent n (hv.symm.trans hk)
        omega
      · rw [hk, Option.some.injEq, Json.int.injEq] at hv
        omega
  · intro next home i _ _ _
    simp [assignIds, fieldLabels]
  · intro f fs iht ih next home i hparent hsep hnames
    rw [map_cons, nodup_cons] at hnames
    have hinner := ((assign_numbered logical).1 f.type (next + 1) home).le
    have hparent' : ∀ n, home.parent = some (.int n) →
        n < (assignType logical f.type (next + 1)).2 := by
      intro n hn
      have := hparent n hn
      omega
    have hwithin := (assign_within logical).1 f.type (next + 1) ⟨some (.int next), []⟩
    have hwithin' := (assign_within logical).2 fs (assignType logical f.type (next + 1)).2 home
      (i + 1)
    have hown : ∀ l ∈ (assignType logical f.type (next + 1)).1.labels ⟨some (.int next), []⟩,
        ∃ n, next ≤ n ∧ n < (assignType logical f.type (next + 1)).2 ∧
          l.home.parent = some (.int n) := by
      intro l hl
      rcases hwithin l hl with h | ⟨n, hlo, hhi, h⟩
      · exact ⟨next, le_refl _, by omega, h.1⟩
      · exact ⟨n, by omega, hhi, h⟩
    rw [assignIds_cons, fieldLabels_cons, map_append, key_under, assigned_labels,
      map_cons, nodup_append', nodup_cons]
    refine ⟨⟨?_, ?_⟩, ?_, ?_⟩
    · intro hmem
      obtain ⟨l, hl, heq⟩ := mem_map.mp hmem
      obtain ⟨n, hlo, -, h⟩ := hown l hl
      have hhome : l.home = home := congrArg Prod.fst heq
      have hlt := hparent n (hhome ▸ h)
      omega
    · apply iht (next + 1)
      · intro n hn
        cases hn
        omega
      · exact hsep f mem_cons_self
    · exact ih _ home (i + 1) hparent' (fun g hg => hsep g (mem_cons_of_mem _ hg)) hnames.2
    · intro a ha hb
      obtain ⟨l', hl', heq⟩ := mem_map.mp hb
      have hrest := hwithin' l' hl'
      rcases mem_cons.mp ha with rfl | ha
      · have hhome : l'.home = home := congrArg Prod.fst heq
        rcases hrest with ⟨-, g, hg, hname⟩ | ⟨n, hlo, -, h⟩
        · obtain ⟨n, -, -, -, hphysical⟩ :=
            ((assign_numbered logical).2 fs _ home (i + 1)).numbered l' hl'
          have hsame : l'.physical = some (.str f.name) := congrArg Prod.snd heq
          rw [hphysical, Option.some.injEq, Json.str.injEq] at hsame
          refine hnames.1 (mem_map.mpr ⟨g, hg, ?_⟩)
          rw [hname]
          exact congrArg lower hsame
        · have hlt := hparent' n (hhome ▸ h)
          omega
      · obtain ⟨l, hl, rfl⟩ := mem_map.mp ha
        have hhome : l'.home = l.home := congrArg Prod.fst heq
        obtain ⟨n, hlo, hhi, h⟩ := hown l hl
        rw [← hhome] at h
        rcases hrest with ⟨hhome', -⟩ | ⟨m, hlo', -, h'⟩
        · have hlt := hparent n (hhome' ▸ h)
          omega
        · rw [h, Option.some.injEq, Json.int.injEq] at h'
          omega

end DeltaSwamp.Metadata
