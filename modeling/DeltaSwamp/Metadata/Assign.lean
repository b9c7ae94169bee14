import DeltaSwamp.Metadata.Columns

/-!
# Assigned ids

`_assign_ids` hands out consecutive ids and, with them, physical names: over a
whole schema, or over the fields that stand at some positions of one.
-/

namespace DeltaSwamp.Metadata

open List

theorem position_ne_nil :
    (∀ (t : DataType) (home : Home), ∀ l ∈ t.labels home, l.position ≠ []) ∧
      ∀ (fs : List Field) (home : Home) (i : Nat),
        ∀ l ∈ fieldLabels home i fs, l.position ≠ [] := by
  refine DataType.induct (P := fun t => ∀ home : Home, ∀ l ∈ t.labels home, l.position ≠ [])
    (Q := fun fs => ∀ (home : Home) (i : Nat), ∀ l ∈ fieldLabels home i fs, l.position ≠ [])
    ?_ ?_ ?_ ?_ ?_ ?_
  · intro name home l hl
    simp [DataType.labels] at hl
  · intro fields ih home l hl
    exact ih home 0 l (by simpa [DataType.labels] using hl)
  · intro e b _ home l hl
    simp only [DataType.labels, mem_map] at hl
    obtain ⟨l', -, rfl⟩ := hl
    simp [Label.under]
  · intro k v b _ _ home l hl
    simp only [DataType.labels, mem_append, mem_map] at hl
    rcases hl with ⟨l', -, rfl⟩ | ⟨l', -, rfl⟩
    · simp [Label.under]
    · simp [Label.under]
  · intro home i l hl
    simp [fieldLabels] at hl
  · intro f fs _ ih home i l hl
    rw [fieldLabels_cons] at hl
    rcases mem_append.mp hl with hl | hl
    · obtain ⟨l', -, rfl⟩ := mem_map.mp hl
      simp [Label.under]
    · exact ih home (i + 1) l hl

/-- Every field of the list is labelled with an id from `lo` up to `hi`, each its own,
and with the physical name that goes with its name and its id. -/
structure Numbered (physical : String → Int → String) (lo hi : Int) (labels : List Label) :
    Prop where
  le : lo ≤ hi
  numbered : ∀ l ∈ labels, ∃ n, lo ≤ n ∧ n < hi ∧ l.id = some (.int n) ∧
    l.physical = some (.str (physical l.name n))
  nodup : (labels.map Label.id).Nodup

section
variable {physical : String → Int → String} {lo mid hi : Int} {as bs : List Label}

theorem Numbered.nil (physical : String → Int → String) (n : Int) : Numbered physical n n [] :=
  ⟨le_refl n, by simp, by simp⟩

theorem Numbered.append (has : Numbered physical lo mid as) (hbs : Numbered physical mid hi bs) :
    Numbered physical lo hi (as ++ bs) := by
  refine ⟨has.le.trans hbs.le, ?_, ?_⟩
  · intro l hl
    rcases mem_append.mp hl with hl | hl
    · obtain ⟨n, hlo, hhi, hid, hphysical⟩ := has.numbered l hl
      exact ⟨n, hlo, hhi.trans_le hbs.le, hid, hphysical⟩
    · obtain ⟨n, hlo, hhi, hid, hphysical⟩ := hbs.numbered l hl
      exact ⟨n, has.le.trans hlo, hhi, hid, hphysical⟩
  · rw [map_append, nodup_append]
    refine ⟨has.nodup, hbs.nodup, ?_⟩
    intro a ha b hb heq
    obtain ⟨l, hl, rfl⟩ := mem_map.mp ha
    obtain ⟨l', hl', rfl⟩ := mem_map.mp hb
    obtain ⟨n, -, hhi, hid, -⟩ := has.numbered l hl
    obtain ⟨m, hlo, -, hid', -⟩ := hbs.numbered l' hl'
    rw [hid, hid', Option.some.injEq, Json.int.injEq] at heq
    omega

theorem Numbered.perm (h : Numbered physical lo hi as) (hperm : as.Perm bs) :
    Numbered physical lo hi bs :=
  ⟨h.le, fun l hl => h.numbered l (hperm.mem_iff.mpr hl),
    (hperm.map Label.id).nodup_iff.mp h.nodup⟩

theorem Numbered.sublist (h : Numbered physical lo hi as) (hsub : bs.Sublist as) :
    Numbered physical lo hi bs :=
  ⟨h.le, fun l hl => h.numbered l (hsub.subset hl), h.nodup.sublist (hsub.map Label.id)⟩

theorem Numbered.under (h : Numbered physical lo hi as) (p : Position) :
    Numbered physical lo hi (as.map (.under p)) := by
  refine ⟨h.le, ?_, ?_⟩
  · intro l hl
    obtain ⟨l', hl', rfl⟩ := mem_map.mp hl
    exact h.numbered l' hl'
  · have hid : Label.id ∘ Label.under p = Label.id := rfl
    rw [map_map, hid]
    exact h.nodup

theorem Numbered.singleton {l : Label} {n : Int} (hid : l.id = some (.int n))
    (hphysical : l.physical = some (.str (physical l.name n))) :
    Numbered physical n (n + 1) [l] :=
  ⟨by omega, by simpa using ⟨n, le_refl n, by omega, hid, hphysical⟩, by simp⟩

end

@[simp] theorem FieldOf.assign_id (f : Field) (id : Int) (physical : String) :
    (f.assign id physical).id = some (.int id) := by
  rw [FieldOf.id, FieldOf.assign, Fields.lookup_insert, if_neg (by decide), Fields.lookup_insert,
    if_pos rfl]

@[simp] theorem FieldOf.assign_physical (f : Field) (id : Int) (physical : String) :
    (f.assign id physical).physical = some (.str physical) := by
  rw [FieldOf.physical, FieldOf.assign, Fields.lookup_insert, if_pos rfl]

@[simp] theorem FieldOf.assign_type (f : Field) (id : Int) (physical : String) :
    (f.assign id physical).type = f.type := rfl

@[simp] theorem FieldOf.assign_name (f : Field) (id : Int) (physical : String) :
    (f.assign id physical).name = f.name := rfl

section
variable (physical : String → Int → String)

/-- The field `_assign_ids` makes of a field. -/
def assigned (f : Field) (next : Int) : Field :=
  FieldOf.assign { f with type := (assignType physical f.type (next + 1)).1 } next
    (physical f.name next)

theorem assignIds_cons (f : Field) (fs : List Field) (next : Int) :
    assignIds physical (f :: fs) next =
      (assigned physical f next ::
          (assignIds physical fs (assignType physical f.type (next + 1)).2).1,
        (assignIds physical fs (assignType physical f.type (next + 1)).2).2) := by
  rw [assignIds]
  rfl

theorem assigned_labels (f : Field) (next : Int) (home : Home) :
    (assigned physical f next).labels home =
      ⟨[], home, f.name, some (.int next), some (.str (physical f.name next))⟩ ::
        (assignType physical f.type (next + 1)).1.labels ⟨some (.int next), []⟩ := by
  simp [FieldOf.labels, FieldOf.label, assigned]

theorem assign_numbered :
    (∀ (t : DataType) (next : Int) (home : Home),
      Numbered physical next (assignType physical t next).2
        ((assignType physical t next).1.labels home)) ∧
    ∀ (fs : List Field) (next : Int) (home : Home) (i : Nat),
      Numbered physical next (assignIds physical fs next).2
        (fieldLabels home i (assignIds physical fs next).1) := by
  refine DataType.induct
    (P := fun t => ∀ (next : Int) (home : Home), Numbered physical next
      (assignType physical t next).2 ((assignType physical t next).1.labels home))
    (Q := fun fs => ∀ (next : Int) (home : Home) (i : Nat), Numbered physical next
      (assignIds physical fs next).2 (fieldLabels home i (assignIds physical fs next).1))
    ?_ ?_ ?_ ?_ ?_ ?_
  · intro name next home
    exact .nil physical next
  · intro fields ih next home
    simpa [assignType, DataType.labels] using ih next home 0
  · intro e b ih next home
    simpa [assignType, DataType.labels] using (ih next (home.within .element)).under [.element]
  · intro k v b ihk ihv next home
    simpa [assignType, DataType.labels] using ((ihk next (home.within .key)).under [.key]).append
      ((ihv (assignType physical k next).2 (home.within .value)).under [.value])
  · intro next home i
    exact .nil physical next
  · intro f fs iht ih next home i
    rw [assignIds_cons, fieldLabels_cons, assigned_labels]
    have hown : Numbered physical next (next + 1)
        [⟨[], home, f.name, some (.int next), some (.str (physical f.name next))⟩] :=
      .singleton rfl rfl
    exact ((hown.append (iht (next + 1) ⟨some (.int next), []⟩)).under [.field i]).append
      (ih _ home (i + 1))

theorem assigned_numbered (f : Field) (next : Int) (home : Home) :
    Numbered physical next (assignType physical f.type (next + 1)).2
      ((assigned physical f next).labels home) := by
  rw [assigned_labels]
  have hown : Numbered physical next (next + 1)
      [⟨[], home, f.name, some (.int next), some (.str (physical f.name next))⟩] :=
    .singleton rfl rfl
  exact hown.append ((assign_numbered physical).1 f.type (next + 1) ⟨some (.int next), []⟩)

/-- Whether a label stands at one of the positions or inside the field there. -/
def below (ps : List Position) (l : Label) : Bool := ps.any fun p => p.isPrefixOf l.position

theorem below_iff {ps : List Position} {l : Label} :
    below ps l = true ↔ ∃ p ∈ ps, p <+: l.position := by
  simp [below]

theorem below_append (ps qs : List Position) (l : Label) :
    below (ps ++ qs) l = (below ps l || below qs l) := by
  simp [below]

/-- Where a field stands, and its name. -/
def Label.spot (l : Label) : Position × String := (l.position, l.name)

theorem spot_under {as bs : List Label} (h : as.map Label.spot = bs.map Label.spot)
    (p : Position) : (as.map (.under p)).map Label.spot = (bs.map (.under p)).map Label.spot := by
  have hspot : Label.spot ∘ Label.under p = (fun s => (p ++ s.1, s.2)) ∘ Label.spot := rfl
  rw [map_map, map_map, hspot, ← map_map, ← map_map, h]

theorem assign_spots :
    (∀ (t : DataType) (next : Int) (home home' : Home),
      ((assignType physical t next).1.labels home).map Label.spot =
        (t.labels home').map Label.spot) ∧
    ∀ (fs : List Field) (next : Int) (home home' : Home) (i : Nat),
      (fieldLabels home i (assignIds physical fs next).1).map Label.spot =
        (fieldLabels home' i fs).map Label.spot := by
  refine DataType.induct
    (P := fun t => ∀ (next : Int) (home home' : Home),
      ((assignType physical t next).1.labels home).map Label.spot =
        (t.labels home').map Label.spot)
    (Q := fun fs => ∀ (next : Int) (home home' : Home) (i : Nat),
      (fieldLabels home i (assignIds physical fs next).1).map Label.spot =
        (fieldLabels home' i fs).map Label.spot)
    ?_ ?_ ?_ ?_ ?_ ?_
  · intro name next home home'
    rfl
  · intro fields ih next home home'
    simpa [assignType, DataType.labels] using ih next home home' 0
  · intro e b ih next home home'
    simp only [assignType, DataType.labels]
    exact spot_under (ih next _ _) [.element]
  · intro k v b ihk ihv next home home'
    simp only [assignType, DataType.labels, map_append]
    rw [spot_under (ihk next _ (home'.within .key)) [.key],
      spot_under (ihv _ _ (home'.within .value)) [.value]]
  · intro next home home' i
    rfl
  · intro f fs iht ih next home home' i
    rw [assignIds_cons, fieldLabels_cons, fieldLabels_cons, map_append, map_append,
      ih _ home home' (i + 1), assigned_labels]
    congr 1
    refine spot_under ?_ [.field i]
    rw [FieldOf.labels, map_cons, map_cons, iht _ _ ⟨f.id, []⟩]
    rfl

theorem fieldAt_isSome_iff (t : DataType) (home : Home) (p : Position) :
    (t.fieldAt p).isSome ↔ ∃ l ∈ t.labels home, l.position = p := by
  constructor
  · intro h
    obtain ⟨f, hf⟩ := Option.isSome_iff_exists.mp h
    obtain ⟨before, after, inner, hsplit⟩ := exists_split_labels hf home
    refine ⟨(f.label inner).under p, ?_, by simp [Label.under, FieldOf.label]⟩
    rw [hsplit.labels]
    simp [FieldOf.labels]
  · have hthere : (∀ (t : DataType) (home : Home), ∀ l ∈ t.labels home,
        (t.fieldAt l.position).isSome) ∧ ∀ (fs : List Field), ∀ f ∈ fs, ∀ home : Home,
          ∀ l ∈ f.type.labels home, (f.type.fieldAt l.position).isSome := by
      refine DataType.induct (P := fun t => ∀ home : Home, ∀ l ∈ t.labels home,
        (t.fieldAt l.position).isSome) (Q := fun fs => ∀ f ∈ fs, ∀ home : Home,
          ∀ l ∈ f.type.labels home, (f.type.fieldAt l.position).isSome) ?_ ?_ ?_ ?_ ?_ ?_
      · intro name home l hl
        simp [DataType.labels] at hl
      · intro fields ih home l hl
        rw [DataType.labels] at hl
        obtain ⟨j, f, l', hf, hl', rfl⟩ := labels_of_mem_fieldLabels hl
        simp only [Label.under, singleton_append, DataType.fieldAt, Nat.zero_add]
        rcases mem_cons.mp hl' with rfl | hl'
        · simp [FieldOf.label, hf]
        · rw [if_neg (position_ne_nil.1 _ _ l' hl'), hf]
          exact ih f (mem_of_getElem? hf) _ l' hl'
      · intro e b ih home l hl
        simp only [DataType.labels, mem_map] at hl
        obtain ⟨l', hl', rfl⟩ := hl
        exact ih _ l' hl'
      · intro k v b ihk ihv home l hl
        simp only [DataType.labels, mem_append, mem_map] at hl
        rcases hl with ⟨l', hl', rfl⟩ | ⟨l', hl', rfl⟩
        · exact ihk _ l' hl'
        · exact ihv _ l' hl'
      · simp
      · intro f fs ihf ihfs g hg
        rcases mem_cons.mp hg with rfl | hg
        · exact ihf
        · exact ihfs g hg
    rintro ⟨l, hl, rfl⟩
    exact hthere.1 t home l hl

variable {schema : DataType}

theorem update_assigned {p : Position} {f : Field} (h : schema.fieldAt p = some f) (next : Int)
    (home : Home) :
    ∃ before after inner,
      schema.labels home = before ++ (f.labels inner).map (.under p) ++ after ∧
      (schema.update (fun _ => (assignIds physical [f] next).1) p).labels home =
        before ++ ((assigned physical f next).labels inner).map (.under p) ++ after ∧
      ∀ l ∈ before ++ after, ¬ p <+: l.position := by
  obtain ⟨before, after, inner, hsplit⟩ := exists_split_labels h home
  refine ⟨before, after, inner, hsplit.labels, hsplit.update _ _ ?_, hsplit.outside⟩
  rw [assignIds_cons]
  rfl

theorem assignAt_cons {p : Position} {f : Field} (h : schema.fieldAt p = some f)
    (ps : List Position) (next : Int) :
    assignAt physical (p :: ps) schema next = assignAt physical ps
      (schema.update (fun _ => (assignIds physical [f] next).1) p)
      (assignType physical f.type (next + 1)).2 := by
  rw [assignAt]
  simp only [h, assignIds_cons]
  rfl

theorem assignAt_spots (home : Home) (ps : List Position) (schema : DataType) (next : Int) :
    ((assignAt physical ps schema next).1.labels home).map Label.spot =
      (schema.labels home).map Label.spot := by
  induction ps generalizing schema next with
  | nil => rfl
  | cons p ps ih =>
    cases hf : schema.fieldAt p with
    | none =>
      rw [assignAt, hf]
      exact ih schema next
    | some f =>
      obtain ⟨before, after, inner, hlabels, hupdate, -⟩ :=
        update_assigned physical hf next home
      rw [assignAt_cons physical hf, ih, hupdate, hlabels]
      simp only [map_append]
      rw [spot_under ?_ p]
      rw [assigned_labels, FieldOf.labels, map_cons, map_cons,
        (assign_spots physical).1 f.type _ _ ⟨f.id, []⟩]
      rfl

theorem assignAt_outside (home : Home) {ps qs : List Position} (hsub : ∀ p ∈ ps, p ∈ qs)
    (schema : DataType) (next : Int) :
    ((assignAt physical ps schema next).1.labels home).filter (fun l => !below qs l) =
      (schema.labels home).filter fun l => !below qs l := by
  induction ps generalizing schema next with
  | nil => rfl
  | cons p ps ih =>
    have hrest := ih fun q hq => hsub q (mem_cons_of_mem p hq)
    cases hf : schema.fieldAt p with
    | none =>
      rw [assignAt, hf]
      exact hrest schema next
    | some f =>
      obtain ⟨before, after, inner, hlabels, hupdate, -⟩ :=
        update_assigned physical hf next home
      have hinside : ∀ ls : List Label,
          (ls.map (.under p)).filter (fun l => !below qs l) = [] := by
        intro ls
        rw [filter_eq_nil_iff]
        intro l hl
        obtain ⟨l', -, rfl⟩ := mem_map.mp hl
        have hbelow : below qs (l'.under p) = true :=
          below_iff.mpr ⟨p, hsub p mem_cons_self, prefix_append p l'.position⟩
        simp [hbelow]
      rw [assignAt_cons physical hf, hrest, hupdate, hlabels]
      simp only [filter_append, hinside]

/-- What stands below the positions assigned so far is numbered. -/
theorem assignAt_numbered (home : Home) (ps : List Position) {lo next : Int} {done : List Position}
    (hthere : ∀ p ∈ ps, ∃ l ∈ schema.labels home, l.position = p)
    (hdone : Numbered physical lo next ((schema.labels home).filter (below done))) :
    Numbered physical lo (assignAt physical ps schema next).2
      (((assignAt physical ps schema next).1.labels home).filter (below (done ++ ps))) := by
  induction ps generalizing schema next done with
  | nil =>
    rw [append_nil]
    exact hdone
  | cons p ps ih =>
    have hsome := (fieldAt_isSome_iff schema home p).mpr (hthere p mem_cons_self)
    obtain ⟨f, hf⟩ := Option.isSome_iff_exists.mp hsome
    obtain ⟨before, after, inner, hlabels, hupdate, houtside⟩ :=
      update_assigned physical hf next home
    have hcons : done ++ p :: ps = done ++ [p] ++ ps := by simp
    rw [assignAt_cons physical hf, hcons]
    refine ih ?_ ?_
    · intro q hq
      obtain ⟨l, hl, rfl⟩ := hthere q (mem_cons_of_mem p hq)
      have hspots := assignAt_spots physical home [p] schema next
      rw [assignAt_cons physical hf] at hspots
      have hspot : l.spot ∈ (schema.labels home).map Label.spot := mem_map_of_mem hl
      rw [← hspots] at hspot
      obtain ⟨l', hl', heq⟩ := mem_map.mp hspot
      exact ⟨l', hl', congrArg Prod.fst heq⟩
    · have hfilter : ∀ ls : List Label, (∀ l ∈ ls, ¬ p <+: l.position) →
          ls.filter (below (done ++ [p])) = ls.filter (below done) := by
        intro ls hls
        refine filter_congr fun l hl => ?_
        have hnot : below [p] l = false := by
          rw [Bool.eq_false_iff, Ne, below_iff]
          simpa using hls l hl
        rw [below_append, hnot, Bool.or_false]
      have hown : (((assigned physical f next).labels inner).map (.under p)).filter
          (below (done ++ [p])) = ((assigned physical f next).labels inner).map (.under p) := by
        rw [filter_eq_self]
        intro l hl
        obtain ⟨l', -, rfl⟩ := mem_map.mp hl
        exact below_iff.mpr ⟨p, by simp, prefix_append p l'.position⟩
      have hrest : Numbered physical lo next ((before ++ after).filter (below done)) := by
        refine hdone.sublist (List.Sublist.filter _ ?_)
        rw [hlabels, append_assoc]
        exact List.Sublist.append_left (sublist_append_right _ _) _
      rw [hupdate, filter_append, filter_append, hown,
        hfilter before fun l hl => houtside l (mem_append_left _ hl),
        hfilter after fun l hl => houtside l (mem_append_right _ hl)]
      rw [filter_append] at hrest
      have hnew := (assigned_numbered physical f next inner).under p
      refine (hrest.append hnew).perm ?_
      rw [append_assoc, append_assoc]
      exact List.Perm.append_left _ perm_append_comm

end

end DeltaSwamp.Metadata
