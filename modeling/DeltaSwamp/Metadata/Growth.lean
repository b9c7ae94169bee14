import DeltaSwamp.Metadata.Merge
import DeltaSwamp.Metadata.Names

/-!
# What a merge does to a schema

A merge appends fields to structs and widens primitive types, one step after
another. Whatever is said of a merge is said of each of these steps.
-/

namespace DeltaSwamp.Metadata

open List

/-- An Arrow type with no type inside it. -/
def ArrowType.IsLeaf : ArrowType → Prop
  | .struct _ | .list _ _ _ | .map _ _ _ | .dictionary _ => False
  | _ => True

theorem ArrowType.induct {P : ArrowType → Prop} {Q : List ArrowField → Prop}
    (leaf : ∀ t : ArrowType, t.IsLeaf → P t)
    (dictionary : ∀ value, P value → P (.dictionary value))
    (struct : ∀ fields, Q fields → P (.struct fields))
    (list : ∀ kind value b, P value → P (.list kind value b))
    (map : ∀ key item b, P key → P item → P (.map key item b))
    (nil : Q []) (cons : ∀ (f : ArrowField) fs, P f.type → Q fs → Q (f :: fs)) :
    (∀ t, P t) ∧ ∀ fs, Q fs := by
  have htype : ∀ t, P t := fun t => ArrowType.rec (motive_1 := P) (motive_2 := Q)
    (motive_3 := fun f => P f.type)
    (leaf _ trivial) (leaf _ trivial) (leaf _ trivial) (leaf _ trivial) (leaf _ trivial)
    (leaf _ trivial) (leaf _ trivial) (leaf _ trivial) (leaf _ trivial) (leaf _ trivial)
    (fun _ => leaf _ trivial) (fun _ _ => leaf _ trivial) dictionary struct
    (fun kind v b => list kind v b) (fun k v b => map k v b) (fun _ => leaf _ trivial) nil
    (fun f fs => cons f fs) (fun _ _ _ _ h => h) t
  refine ⟨htype, fun fs => ?_⟩
  induction fs with
  | nil => exact nil
  | cons f fs ih => exact cons f fs (htype f.type) ih

/-- One type made of another by appending fields, at the positions listed, and
widening primitive types, to those listed. -/
inductive Grown (py : Python) (state : TableState) :
    DataType → DataType → List Position → List String → Prop where
  | refl (t : DataType) : Grown py state t t [] []
  | trans {a b c : DataType} {ps qs : List Position} {vs ws : List String} :
      Grown py state a b ps vs → Grown py state b c qs ws →
      Grown py state a c (ps ++ qs) (vs ++ ws)
  | append (fs : List Field) (f : Field) (arrow : ArrowField) (path : String) :
      (∀ g ∈ fs, py.lower g.name ≠ py.lower f.name) → newField py state arrow path = .ok f →
      Grown py state (.struct fs) (.struct (fs ++ [f])) [[.field fs.length]] []
  | widen (as bs : List Field) (f : Field) (old new : String) :
      f.type = .primitive old → wideningAllowed py (withoutSpaces old) new = true →
      Grown py state (.struct (as ++ f :: bs))
        (.struct (as ++
          { f with type := .primitive new, metadata := f.recordChange old new } :: bs))
        [] [new]
  | field (as bs : List Field) (f : Field) {t : DataType} {ps : List Position} {ws : List String} :
      Grown py state f.type t ps ws →
      Grown py state (.struct (as ++ f :: bs)) (.struct (as ++ { f with type := t } :: bs))
        (ps.map (.field as.length :: ·)) ws
  | element (b : Bool) {e t : DataType} {ps : List Position} {ws : List String} :
      Grown py state e t ps ws →
      Grown py state (.array e b) (.array t b) (ps.map (.element :: ·)) ws
  | key (v : DataType) (b : Bool) {k t : DataType} {ps : List Position} {ws : List String} :
      Grown py state k t ps ws →
      Grown py state (.map k v b) (.map t v b) (ps.map (.key :: ·)) ws
  | value (k : DataType) (b : Bool) {v t : DataType} {ps : List Position} {ws : List String} :
      Grown py state v t ps ws →
      Grown py state (.map k v b) (.map k t b) (ps.map (.value :: ·)) ws

section
variable {py : Python} {state : TableState}

variable {path : String}

theorem mergePrimitive_allowed {table new : String} {data : ArrowType} {nested : Bool}
    (h : mergePrimitive py state table data path nested = .ok (some new)) :
    nested = false ∧ wideningAllowed py (withoutSpaces table) new = true := by
  unfold mergePrimitive at h
  split at h
  · rename_i name heq
    by_cases hsame : (withoutSpaces name = withoutSpaces table ||
        !wideningAllowed py (withoutSpaces table) (withoutSpaces name)) = true
    · simp [hsame] at h
    · simp only [if_neg hsame, Result.guard_eq_ok_iff] at h
      obtain ⟨-, hnested, -, -, h⟩ := h
      rw [Result.pure_eq_ok_iff, Option.some.injEq] at h
      subst h
      simp only [Bool.or_eq_true, decide_eq_true_eq, Bool.not_eq_true', not_or] at hsame
      exact ⟨Bool.eq_false_iff.mpr hnested, by simpa using hsame.2⟩
  · simp at h

/-- What `merge_type` returns: the type grown, or a primitive type as it was with the type it
is to be widened to. -/
def MergedType (py : Python) (state : TableState) (table : DataType) (nested : Bool)
    (r : Merged DataType × Option String) : Prop :=
  match r.2 with
  | none => Grown py state table r.1.merged r.1.added r.1.widened
  | some new => nested = false ∧ r.1 = .unchanged table ∧ ∃ old, table = .primitive old ∧
      wideningAllowed py (withoutSpaces old) new = true

variable {name : String} {r : Merged DataType × Option String}

theorem MergedType.nested {table : DataType} (h : MergedType py state table true r) :
    Grown py state table r.1.merged r.1.added r.1.widened := by
  unfold MergedType at h
  split at h
  · exact h
  · exact absurd h.1 (by simp)

variable {f : Field}

theorem MergedType.struct (as bs : List Field) {nested : Bool}
    (h : MergedType py state f.type nested r) :
    Grown py state (.struct (as ++ f :: bs)) (.struct (as ++ widenField f r.1.merged r.2 :: bs))
      (r.1.added.map (.field as.length :: ·)) (r.1.widened ++ r.2.toList) := by
  unfold MergedType at h
  split at h
  · rename_i hnone
    have hgrown := Grown.field as bs f h
    simpa [widenField, hnone] using hgrown
  · rename_i new hsome
    obtain ⟨-, hsame, old, htype, hallowed⟩ := h
    have hgrown : Grown py state _ _ _ _ := .widen as bs f old new htype hallowed
    simpa [widenField, hsome, htype, hsame, Merged.unchanged] using hgrown

theorem matchIndex_none {fields : List Field} (h : matchIndex py fields name = none) :
    ∀ g ∈ fields, py.lower g.name ≠ py.lower name := by
  intro g hg heq
  simp only [matchIndex, Option.map_eq_none_iff, List.getLast?_eq_none_iff,
    filter_eq_nil_iff, decide_eq_true_eq] at h
  obtain ⟨i, hi⟩ := mem_iff_getElem?.mp hg
  exact h (g, i) (mem_zipIdx_iff_getElem?.mpr hi) heq

theorem matchIndex_some {fields : List Field} {i : Nat} (h : matchIndex py fields name = some i) :
    ∃ f, fields[i]? = some f ∧ py.lower f.name = py.lower name := by
  simp only [matchIndex, Option.map_eq_some_iff] at h
  obtain ⟨⟨f, j⟩, hlast, rfl⟩ := h
  have hmem := mem_of_getLast? hlast
  rw [mem_filter, decide_eq_true_eq] at hmem
  exact ⟨f, mem_zipIdx_iff_getElem?.mp hmem.1, hmem.2⟩

theorem newField_name {arrow : ArrowField} (h : newField py state arrow path = .ok f) :
    f.name = arrow.name := by
  unfold newField at h
  obtain ⟨t, -, h⟩ := Result.bind_eq_ok_iff.mp h
  simp only [Result.guard_eq_ok_iff, Result.pure_eq_ok_iff] at h
  rw [← h.2]

/-- Whether merging data goes into a type. -/
def Enters : ArrowType → DataType → Prop
  | .struct _, .struct _ => True
  | .list kind _ _, .array _ _ => (kind = .list || kind = .largeList) = true
  | .map _ _ _, .map _ _ _ => True
  | _, _ => False

/-- What a merge left at the end of each of its steps holds of what it returns: it takes a
primitive type as it is, leaves a type it does not go into, goes into the parts of one, and takes
the data's fields in turn, as new ones or into the table's. -/
theorem merge_induct
    {P : ArrowType → DataType → String → Bool → Merged DataType × Option String → Prop}
    {Q : List ArrowField → List Field → String → Bool → Merged (List Field) → Prop}
    (primitive : ∀ data name path nested w, mergePrimitive py state name data path nested = .ok w →
      P data (.primitive name) path nested (.unchanged (.primitive name), w))
    (unchanged : ∀ data table path nested, ¬ Enters data table →
      P data table path nested (.unchanged table, none))
    (struct : ∀ data fields path nested m, Q data fields path nested m →
      P (.struct data) (.struct fields) path nested
        (⟨.struct m.merged, m.added, m.widened⟩, none))
    (array : ∀ kind value nullable e b path nested m,
      (kind = .list || kind = .largeList) = true → P value e (path ++ ".element") true m →
      P (.list kind value nullable) (.array e b) path nested
        (m.1.inside .element fun e => .array e b, none))
    (map : ∀ key item nullable k v b path nested m n, P key k (path ++ ".key") true m →
      P item v (path ++ ".value") true n →
      P (.map key item nullable) (.map k v b) path nested (⟨.map m.1.merged n.1.merged b,
        m.1.added.map (.key :: ·) ++ n.1.added.map (.value :: ·),
        m.1.widened ++ n.1.widened⟩, none))
    (nil : ∀ fields path nested, Q [] fields path nested (.unchanged fields))
    (new : ∀ (a : ArrowField) as fields path nested f m, matchIndex py fields a.name = none →
      newField py state a (if path = "" then a.name else path ++ "." ++ a.name) = .ok f →
      Q as (fields ++ [f]) path nested m →
      Q (a :: as) fields path nested { m with added := [.field fields.length] :: m.added })
    (old : ∀ (a : ArrowField) as fields path nested i f m n,
      matchIndex py fields a.name = some i → fields[i]? = some f →
      mergeType py state f.type (if path = "" then a.name else path ++ "." ++ a.name) nested
        a.type = .ok m →
      P a.type f.type (if path = "" then a.name else path ++ "." ++ a.name) nested m →
      Q as (fields.set i (widenField f m.1.merged m.2)) path nested n →
      Q (a :: as) fields path nested ⟨n.merged, m.1.added.map (.field i :: ·) ++ n.added,
        m.1.widened ++ m.2.toList ++ n.widened⟩) :
    (∀ data table path nested r, mergeType py state table path nested data = .ok r →
      P data table path nested r) ∧
    ∀ data fields path nested r, mergeFields py state fields path nested data = .ok r →
      Q data fields path nested r := by
  have hprimitive : ∀ data name path nested r,
      (mergePrimitive py state name data path nested >>= fun w =>
        (pure (.unchanged (.primitive name), w) : Except Refused _)) = .ok r →
      P data (.primitive name) path nested r := by
    intro data name path nested r h
    obtain ⟨w, hw, h⟩ := Result.bind_eq_ok_iff.mp h
    cases h
    exact primitive data name path nested w hw
  refine ArrowType.induct
    (P := fun data => ∀ table path nested r, mergeType py state table path nested data = .ok r →
      P data table path nested r)
    (Q := fun data => ∀ fields path nested r,
      mergeFields py state fields path nested data = .ok r → Q data fields path nested r)
    ?_ ?_ ?_ ?_ ?_ ?_ ?_
  · intro data hleaf table path nested r h
    cases table with
    | primitive name =>
      cases data with
      | struct | list | map | dictionary => exact hleaf.elim
      | _ => exact hprimitive _ _ _ _ _ h
    | _ =>
      cases data with
      | struct | list | map | dictionary => exact hleaf.elim
      | _ =>
        cases h
        exact unchanged _ _ _ _ id
  · intro value _ table path nested r h
    cases table with
    | primitive name => exact hprimitive _ _ _ _ _ h
    | _ =>
      cases h
      exact unchanged _ _ _ _ id
  · intro data ih table path nested r h
    cases table with
    | struct fields =>
      rw [mergeType] at h
      obtain ⟨m, hm, h⟩ := Result.bind_eq_ok_iff.mp h
      cases h
      exact struct _ _ _ _ m (ih fields path nested m hm)
    | primitive name => exact hprimitive _ _ _ _ _ h
    | _ =>
      cases h
      exact unchanged _ _ _ _ id
  · intro kind value b ih table path nested r h
    cases table with
    | array e b' =>
      rw [mergeType] at h
      split_ifs at h with hkind
      · obtain ⟨m, hm, h⟩ := Result.bind_eq_ok_iff.mp h
        cases h
        exact array _ _ _ _ _ _ _ m hkind (ih e _ true m hm)
      · cases h
        exact unchanged _ _ _ _ hkind
    | primitive name => exact hprimitive _ _ _ _ _ h
    | _ =>
      cases h
      exact unchanged _ _ _ _ id
  · intro key item b ihk ihv table path nested r h
    cases table with
    | map k v b' =>
      rw [mergeType] at h
      obtain ⟨m, hm, h⟩ := Result.bind_eq_ok_iff.mp h
      obtain ⟨n, hn, h⟩ := Result.bind_eq_ok_iff.mp h
      cases h
      exact map _ _ _ _ _ _ _ _ m n (ihk k _ true m hm) (ihv v _ true n hn)
    | primitive name => exact hprimitive _ _ _ _ _ h
    | _ =>
      cases h
      exact unchanged _ _ _ _ id
  · intro fields path nested r h
    rw [mergeFields] at h
    cases h
    exact nil fields path nested
  · intro a as iht ih fields path nested r h
    rw [mergeFields] at h
    cases hindex : matchIndex py fields a.name with
    | none =>
      rw [hindex] at h
      obtain ⟨f, hf, h⟩ := Result.bind_eq_ok_iff.mp h
      obtain ⟨m, hm, h⟩ := Result.bind_eq_ok_iff.mp h
      cases h
      exact new a as fields path nested f m hindex hf (ih _ path nested m hm)
    | some i =>
      obtain ⟨f, hf, -⟩ := matchIndex_some hindex
      rw [hindex] at h
      dsimp only at h
      rw [hf] at h
      obtain ⟨m, hm, h⟩ := Result.bind_eq_ok_iff.mp h
      obtain ⟨n, hn, h⟩ := Result.bind_eq_ok_iff.mp h
      cases h
      exact old a as fields path nested i f m n hindex hf hm (iht f.type _ nested m hm)
        (ih _ path nested n hn)

theorem merge_grown :
    (∀ (data : ArrowType) (table : DataType) (path : String) (nested : Bool)
      (r : Merged DataType × Option String),
      mergeType py state table path nested data = .ok r → MergedType py state table nested r) ∧
    ∀ (data : List ArrowField) (fields : List Field) (path : String) (nested : Bool)
      (r : Merged (List Field)), mergeFields py state fields path nested data = .ok r →
      Grown py state (.struct fields) (.struct r.merged) r.added r.widened := by
  refine merge_induct
    (P := fun _ table _ nested r => MergedType py state table nested r)
    (Q := fun _ fields _ _ r =>
      Grown py state (.struct fields) (.struct r.merged) r.added r.widened)
    ?_ ?_ ?_ ?_ ?_ ?_ ?_ ?_
  · intro _ name _ nested w hw
    cases w with
    | none => exact .refl _
    | some new =>
      obtain ⟨hnested, hallowed⟩ := mergePrimitive_allowed hw
      exact ⟨hnested, rfl, name, rfl, hallowed⟩
  · exact fun _ table _ _ _ => .refl table
  · exact fun _ _ _ _ _ ih => ih
  · exact fun _ _ _ _ b _ _ _ _ ih => Grown.element b ih.nested
  · exact fun _ _ _ _ v b _ _ m _ ihk ihv =>
      (Grown.key v b ihk.nested).trans (Grown.value m.1.merged b ihv.nested)
  · exact fun fields _ _ => .refl (.struct fields)
  · intro a _ fields _ _ f _ hnone hf ih
    have hname : f.name = a.name := newField_name hf
    exact (Grown.append fields f _ _ (hname ▸ matchIndex_none hnone) hf).trans ih
  · intro _ _ fields _ _ i f m _ _ hf _ iht ih
    obtain ⟨as, bs, rfl, rfl⟩ := exists_split hf
    have hset : (as ++ f :: bs).set as.length (widenField f m.1.merged m.2) =
        as ++ widenField f m.1.merged m.2 :: bs := by
      simp
    rw [hset] at ih
    exact (iht.struct as bs).trans ih

/-- Fields at the new positions and inside them are new; every other field stays where it is. -/
structure Kept (lower : String → String) (old new : DataType) (added : List Position) : Prop where
  kept : ∀ home, (new.labels home).filter (fun l => !below added l) = old.labels home
  there : ∀ p ∈ added, ∃ s ∈ new.spots, s.1 = p
  separate : ∀ exempt, Separate lower exempt old.spots →
    Separate lower (fun p => exempt p ∨ ∃ q ∈ added, q <+: p) new.spots

variable {lower : String → String}

theorem Kept.refl (t : DataType) : Kept lower t t [] := by
  refine ⟨fun home => ?_, by simp, fun exempt h => h.mono (List.Subset.refl _) fun p hp => .inl hp⟩
  simp [below]

theorem Kept.subset {old new : DataType} {added : List Position} (h : Kept lower old new added) :
    old.spots ⊆ new.spots := by
  intro s hs
  obtain ⟨l, hl, rfl⟩ := mem_map.mp hs
  rw [← h.kept] at hl
  exact mem_map_of_mem (mem_filter.mp hl).1

theorem Kept.trans {a b c : DataType} {ps qs : List Position} (h : Kept lower a b ps)
    (h' : Kept lower b c qs) : Kept lower a c (ps ++ qs) := by
  refine ⟨?_, ?_, ?_⟩
  · intro home
    rw [← h.kept home, ← h'.kept home, filter_filter]
    apply filter_congr
    intro l _
    rw [below_append, Bool.not_or]
  · intro p hp
    rcases mem_append.mp hp with hp | hp
    · obtain ⟨s, hs, rfl⟩ := h.there p hp
      exact ⟨s, h'.subset hs, rfl⟩
    · exact h'.there p hp
  · intro exempt hsep
    apply (h'.separate _ (h.separate exempt hsep)).mono (List.Subset.refl _)
    rintro p ((hp | ⟨q, hq, hp⟩) | ⟨q, hq, hp⟩)
    · exact .inl hp
    · exact .inr ⟨q, mem_append_left _ hq, hp⟩
    · exact .inr ⟨q, mem_append_right _ hq, hp⟩

/-- What a step inside a type keeps, the type keeps. -/
theorem Kept.inside {x y t u : DataType} {added : List Position} (h : Kept lower x y added)
    (s : Step) (around : Home → Home × List Label × List Label)
    (ht : ∀ home, t.labels home = (around home).2.1 ++
      (x.labels (around home).1).map (.under [s]) ++ (around home).2.2)
    (hu : ∀ home, u.labels home = (around home).2.1 ++
      (y.labels (around home).1).map (.under [s]) ++ (around home).2.2)
    (hout : ∀ home, ∀ l ∈ (around home).2.1 ++ (around home).2.2,
      ∀ p, p ≠ [] → ¬ s :: p <+: l.position) :
    Kept lower t u (added.map (s :: ·)) := by
  have hne : ∀ p ∈ added, p ≠ [] := by
    intro p hp
    obtain ⟨spot, hspot, rfl⟩ := h.there p hp
    exact spot_ne_nil hspot
  have hbelow : ∀ l : Label, below (added.map (s :: ·)) (l.under [s]) = below added l := by
    intro l
    simp [below, Label.under, any_map, Function.comp_def]
  have houter : ∀ home, ∀ l ∈ (around home).2.1 ++ (around home).2.2,
      below (added.map (s :: ·)) l = false := by
    intro home l hl
    rw [Bool.eq_false_iff, Ne, below_iff]
    rintro ⟨q, hq, hprefix⟩
    obtain ⟨p, hp, rfl⟩ := mem_map.mp hq
    exact hout home l hl p (hne p hp) hprefix
  have hspots : ∀ z : DataType, ((z.labels (around ⟨none, []⟩).1).map (.under [s])).map Label.spot =
      z.spots.map (Spot.under s) := by
    intro z
    rw [spots_map_under, labels_spots]
  refine ⟨?_, ?_, ?_⟩
  · intro home
    have hself : ∀ ls : List Label, (∀ l ∈ ls, l ∈ (around home).2.1 ++ (around home).2.2) →
        ls.filter (fun l => !below (added.map (s :: ·)) l) = ls := by
      intro ls hls
      rw [filter_eq_self]
      intro l hl
      rw [houter home l (hls l hl)]
      rfl
    rw [hu, ht, filter_append, filter_append,
      hself _ fun l hl => mem_append_left _ hl, hself _ fun l hl => mem_append_right _ hl,
      filter_map, ← h.kept]
    simp only [Function.comp_def, hbelow]
  · intro p hp
    obtain ⟨q, hq, rfl⟩ := mem_map.mp hp
    obtain ⟨spot, hspot, rfl⟩ := h.there q hq
    refine ⟨spot.under s, ?_, rfl⟩
    rw [DataType.spots, hu, map_append, map_append, hspots]
    exact mem_append_left _ (mem_append_right _ (mem_map_of_mem hspot))
  · intro exempt hsep
    rw [DataType.spots, ht, map_append, map_append, hspots] at hsep
    rw [DataType.spots, hu, map_append, map_append, hspots]
    have hinner : Separate lower (fun p => exempt (s :: p)) x.spots := by
      apply Separate.inside
      · apply hsep.mono
        · intro a ha
          exact mem_append_left _ (mem_append_right _ ha)
        · exact fun _ hp => hp
      · exact fun spot hspot => spot_ne_nil hspot
    -- A struct inside the part is no struct outside it.
    have hapart : ∀ a ∈ y.spots.map (Spot.under s),
        ∀ b ∈ (around ⟨none, []⟩).2.1.map Label.spot ++ (around ⟨none, []⟩).2.2.map Label.spot,
        a.1.dropLast ≠ b.1.dropLast := by
      intro a ha b hb heq
      obtain ⟨a, ha', rfl⟩ := mem_map.mp ha
      rw [← map_append] at hb
      obtain ⟨l, hl, rfl⟩ := mem_map.mp hb
      rw [under_dropLast s (spot_ne_nil ha')] at heq
      have hne : l.position ≠ [] := by
        rintro hnil
        simp [Label.spot, hnil] at heq
      have hsplit := dropLast_append_getLast hne
      have hstart : l.position.dropLast = s :: a.1.dropLast := heq.symm
      apply hout _ l hl (a.1.dropLast ++ [l.position.getLast hne]) (by simp)
      rw [← cons_append, ← hstart, hsplit]
    intro a ha b hb hstruct hname hnot
    simp only [mem_append] at ha hb
    have hother : ∀ c, (c ∈ (around ⟨none, []⟩).2.1.map Label.spot ∨
        c ∈ y.spots.map (Spot.under s)) ∨ c ∈ (around ⟨none, []⟩).2.2.map Label.spot →
        c ∈ y.spots.map (Spot.under s) ∨ c ∈ (around ⟨none, []⟩).2.1.map Label.spot ++
          (around ⟨none, []⟩).2.2.map Label.spot := by
      intro c hc
      rw [mem_append]
      tauto
    rcases hother a ha with ha | ha
    · rcases hother b hb with hb | hb
      · have hgrown : Separate lower (fun p => exempt p ∨ ∃ q ∈ added.map (s :: ·), q <+: p)
            (y.spots.map (Spot.under s)) := by
          apply Separate.under
          · apply (h.separate _ hinner).mono (List.Subset.refl _)
            rintro p (hp | ⟨q, hq, hp⟩)
            · exact .inl hp
            · exact .inr ⟨s :: q, mem_map_of_mem hq, by simpa using hp⟩
          · exact fun spot hspot => spot_ne_nil hspot
        exact hgrown a ha b hb hstruct hname hnot
      · exact absurd hstruct (hapart a ha b hb)
    · rcases hother b hb with hb | hb
      · exact absurd hstruct.symm (hapart b hb a ha)
      · refine hsep a ?_ b ?_ hstruct hname fun hp => hnot (.inl hp)
        · rcases mem_append.mp ha with ha | ha <;> simp [ha]
        · rcases mem_append.mp hb with hb | hb <;> simp [hb]

theorem Kept.of_labels {t u : DataType} (h : ∀ home, u.labels home = t.labels home) :
    Kept lower t u [] := by
  have hspots : u.spots = t.spots := by
    rw [DataType.spots, DataType.spots, h]
  refine ⟨fun home => ?_, by simp, fun exempt hsep => ?_⟩
  · rw [h]
    simp [below]
  · rw [hspots]
    exact hsep.mono (List.Subset.refl _) fun p hp => .inl hp

theorem recordChange_lookup (f : Field) (old new : String) {key : String} (h : key ≠ typeChanges) :
    (f.recordChange old new).lookup key = f.metadata.lookup key := by
  rw [FieldOf.recordChange, Fields.lookup_insert, if_neg h]

theorem labels_widened {old : String} (htype : f.type = .primitive old) (new : String)
    (home : Home) :
    FieldOf.labels { f with type := .primitive new, metadata := f.recordChange old new } home =
      f.labels home := by
  have hid : (f.recordChange old new).lookup cmId = f.metadata.lookup cmId :=
    recordChange_lookup f old new (by decide)
  have hphysical : (f.recordChange old new).lookup cmPhysical = f.metadata.lookup cmPhysical :=
    recordChange_lookup f old new (by decide)
  simp [FieldOf.labels, FieldOf.label, FieldOf.id, FieldOf.physical, htype, DataType.labels, hid,
    hphysical]

theorem Kept.append (fs : List Field) (f : Field)
    (hname : ∀ g ∈ fs, lower g.name ≠ lower f.name) :
    Kept lower (.struct fs) (.struct (fs ++ [f])) [[.field fs.length]] := by
  refine ⟨?_, ?_, ?_⟩
  · intro home
    rw [DataType.labels, DataType.labels, fieldLabels_append, filter_append]
    have hold : (fieldLabels home 0 fs).filter (fun l => !below [[.field fs.length]] l) =
        fieldLabels home 0 fs := by
      rw [filter_eq_self]
      intro l hl
      rw [Bool.not_eq_true', Bool.eq_false_iff, Ne, below_iff]
      rintro ⟨p, hp, hprefix⟩
      rw [mem_singleton] at hp
      subst hp
      have := index_of_mem_fieldLabels hl hprefix
      omega
    have hnew : (fieldLabels home (0 + fs.length) [f]).filter
        (fun l => !below [[.field fs.length]] l) = [] := by
      rw [filter_eq_nil_iff]
      intro l hl
      simp only [fieldLabels, append_nil, Nat.zero_add] at hl
      obtain ⟨l', -, rfl⟩ := mem_map.mp hl
      simp [below, Label.under]
    rw [hold, hnew, append_nil]
  · intro p hp
    rw [mem_singleton] at hp
    subst hp
    exact ⟨([.field fs.length], f.name),
      mem_fieldSpots.mpr ⟨fs.length, f, by simp, .inl rfl⟩, rfl⟩
  · intro exempt hsep
    apply separate_struct
    · intro hnot
      rw [map_append, nodup_append']
      refine ⟨hsep.names fun hp => hnot (.inl hp), by simp, ?_⟩
      intro a ha hb
      obtain ⟨g, hg, rfl⟩ := mem_map.mp ha
      exact hname g hg (by simpa using hb)
    · intro i g hg
      by_cases hi : i < fs.length
      · rw [List.getElem?_append_left hi] at hg
        exact (hsep.type hg).mono (List.Subset.refl _) fun p hp => .inl hp
      · have hindex : i = fs.length := by
          obtain ⟨hlt, -⟩ := List.getElem?_eq_some_iff.mp hg
          simp at hlt
          omega
        subst hindex
        intro a _ b _ _ _ hnot
        exact absurd (.inr ⟨[.field fs.length], by simp, by simp⟩) hnot

theorem Grown.kept {t u : DataType} {ps : List Position} {ws : List String}
    (h : Grown py state t u ps ws) : Kept py.lower t u ps := by
  induction h with
  | refl t => exact .refl t
  | trans _ _ ih ih' => exact ih.trans ih'
  | append fs f arrow path hname _ => exact .append fs f hname
  | widen as bs f old new htype _ =>
    apply Kept.of_labels
    intro home
    rw [labels_struct_split, labels_struct_split, labels_widened htype]
  | field as bs f _ ih =>
    apply ih.inside (.field as.length) fun home => (⟨f.id, []⟩,
      fieldLabels home 0 as ++ [(f.label home).under [.field as.length]],
      fieldLabels home (as.length + 1) bs)
    · intro home
      rw [labels_struct_split]
      simp [FieldOf.labels]
    · intro home
      rw [labels_struct_split]
      simp [FieldOf.labels, FieldOf.label, FieldOf.id, FieldOf.physical]
    · intro home l hl p hp hprefix
      simp only [mem_append, mem_singleton] at hl
      rcases hl with (hl | rfl) | hl
      · exact not_prefix_siblings home as bs p l (mem_append_left _ hl) hprefix
      · exact hp (prefix_nil.mp (cons_prefix_cons.mp hprefix).2)
      · exact not_prefix_siblings home as bs p l (mem_append_right _ hl) hprefix
  | element b _ ih =>
    apply ih.inside .element fun home => (home.within .element, [], [])
    · intro home
      simp [DataType.labels]
    · intro home
      simp [DataType.labels]
    · simp
  | key v b _ ih =>
    apply ih.inside .key fun home => (home.within .key, [],
      (v.labels (home.within .value)).map (.under [.value]))
    · intro home
      simp [DataType.labels]
    · intro home
      simp [DataType.labels]
    · intro home l hl p hp
      exact (apart_under p _ (show Step.key ≠ .value by simp) hp l (by simpa using hl)).1
  | value k b _ ih =>
    apply ih.inside .value fun home => (home.within .value,
      (k.labels (home.within .key)).map (.under [.key]), [])
    · intro home
      simp [DataType.labels]
    · intro home
      simp [DataType.labels]
    · intro home l hl p hp
      exact (apart_under p _ (show Step.value ≠ .key by simp) hp l (by simpa using hl)).1

end

end DeltaSwamp.Metadata
