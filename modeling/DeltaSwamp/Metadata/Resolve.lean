import DeltaSwamp.Metadata.History

/-!
# Names that lead to columns

Which field a path of names leads to, by any way of telling which field a name
means, and where the same path leads once a column is dropped or renamed.
-/

namespace DeltaSwamp.Metadata

open List

/-- What the names after a column's own are looked up in. -/
inductive Inside where
  | struct (way : Position) (fields : List Field)
  /-- The column's values, whatever the names are. -/
  | values
  | nothing

/-- Only a struct has columns inside. -/
def DataType.inStruct : DataType → Inside
  | .struct fields => .struct [] fields
  | _ => .nothing

/-- SQL looks through arrays for structs, and into a map or a variant by keys. -/
def DataType.inValues : DataType → Inside
  | .struct fields => .struct [] fields
  | .array e _ =>
    match e.inValues with
    | .struct way fields => .struct (.element :: way) fields
    | _ => .values
  | _ => .values

/-- The first field that a name means. -/
def firstNamed (same : Field → String → Bool) (name : String) (fields : List Field) :
    Option (Field × Nat) :=
  fields.zipIdx.find? fun e => same e.1 name

/-- The field that a path leads to. -/
def resolve (same : Field → String → Bool) (enter : DataType → Inside) :
    List Field → List String → Option Position
  | _, [] => none
  | fields, name :: rest =>
    (firstNamed same name fields).bind fun e =>
      if rest = [] then some [.field e.2]
      else
        match enter e.1.type with
        | .struct way child => (resolve same enter child rest).map fun q => .field e.2 :: way ++ q
        | .values => some [.field e.2]
        | .nothing => none

section
variable {same : Field → String → Bool} {enter : DataType → Inside}

variable {name : String} {fields : List Field} {f : Field} {i : Nat}

theorem find?_zipIdx_iff (fields : List Field) (k : Nat) :
    (fields.zipIdx k).find? (fun e => same e.1 name) = some (f, i) ↔
      ∃ i', i = k + i' ∧ fields[i']? = some f ∧ same f name = true ∧
        ∀ j g, j < i' → fields[j]? = some g → same g name = false := by
  induction fields generalizing k with
  | nil => simp
  | cons g fields ih =>
    rw [zipIdx_cons, List.find?_cons]
    cases hg : same g name with
    | true =>
      constructor
      · intro h
        cases h
        refine ⟨0, rfl, rfl, hg, ?_⟩
        intro j g' hj
        omega
      · rintro ⟨i', rfl, hf, -, hfirst⟩
        cases i' with
        | zero =>
          cases hf
          rfl
        | succ i' =>
          have hno := hfirst 0 g (by omega) rfl
          rw [hg] at hno
          cases hno
    | false =>
      simp only
      rw [ih]
      constructor
      · rintro ⟨i', rfl, hf, hsame, hfirst⟩
        refine ⟨i' + 1, by omega, by simpa using hf, hsame, ?_⟩
        intro j g' hj hg'
        cases j with
        | zero =>
          cases hg'
          exact hg
        | succ j => exact hfirst j g' (by omega) (by simpa using hg')
      · rintro ⟨i', rfl, hf, hsame, hfirst⟩
        cases i' with
        | zero =>
          cases hf
          rw [hg] at hsame
          cases hsame
        | succ i' =>
          refine ⟨i', by omega, by simpa using hf, hsame, ?_⟩
          intro j g' hj hg'
          exact hfirst (j + 1) g' (by omega) (by simpa using hg')

theorem firstNamed_iff :
    firstNamed same name fields = some (f, i) ↔ fields[i]? = some f ∧ same f name = true ∧
      ∀ j g, j < i → fields[j]? = some g → same g name = false := by
  rw [firstNamed, find?_zipIdx_iff fields 0]
  constructor
  · rintro ⟨i', rfl, h⟩
    rw [Nat.zero_add]
    exact h
  · intro h
    exact ⟨i, by omega, h⟩

theorem firstNamed_none :
    firstNamed same name fields = none ↔ ∀ f ∈ fields, same f name = false := by
  rw [firstNamed, List.find?_eq_none]
  constructor
  · intro h f hf
    obtain ⟨i, hi⟩ := mem_iff_getElem?.mp hf
    simpa using h (f, i) (mem_zipIdx_iff_getElem?.mpr hi)
  · intro h e he
    have hf : e.1 ∈ fields := mem_of_getElem? (mem_zipIdx_iff_getElem?.mp he)
    simp [h e.1 hf]

theorem resolve_cons {fields : List Field} {name : String} {rest : List String} :
    resolve same enter fields (name :: rest) = (firstNamed same name fields).bind fun e =>
      if rest = [] then some [.field e.2]
      else
        match enter e.1.type with
        | .struct way child => (resolve same enter child rest).map fun q => .field e.2 :: way ++ q
        | .values => some [.field e.2]
        | .nothing => none := by
  rw [resolve]

variable {f' : Field}

theorem resolve_congr {fields' : List Field} {rest : List String}
    (h : firstNamed same name fields = some (f, i))
    (h' : firstNamed same name fields' = some (f', i)) (htype : f'.type = f.type) :
    resolve same enter fields' (name :: rest) = resolve same enter fields (name :: rest) := by
  rw [resolve_cons, resolve_cons, h, h', Option.bind_some, Option.bind_some, htype]

variable {path : List String}

theorem resolve_some {p : Position} (h : resolve same enter fields path = some p) :
    ∃ name rest f i q,
      path = name :: rest ∧ firstNamed same name fields = some (f, i) ∧ p = .field i :: q := by
  cases path with
  | nil => cases h
  | cons name rest =>
    rw [resolve_cons] at h
    obtain ⟨⟨f, i⟩, hfirst, h⟩ := Option.bind_eq_some_iff.mp h
    split_ifs at h with hrest
    · cases h
      exact ⟨name, rest, f, i, [], rfl, hfirst, rfl⟩
    · split at h
      · obtain ⟨q, -, rfl⟩ := Option.map_eq_some_iff.mp h
        exact ⟨name, rest, f, i, _, rfl, hfirst, rfl⟩
      · cases h
        exact ⟨name, rest, f, i, [], rfl, hfirst, rfl⟩
      · cases h

variable {j : Nat}

theorem firstNamed_eraseIdx (h : firstNamed same name fields = some (f, j)) (hne : j ≠ i) :
    firstNamed same name (fields.eraseIdx i) = some (f, if i < j then j - 1 else j) := by
  obtain ⟨hf, hsame, hfirst⟩ := firstNamed_iff.mp h
  apply firstNamed_iff.mpr
  refine ⟨?_, hsame, ?_⟩
  · rw [List.getElem?_eraseIdx]
    split_ifs with hlt hlt'
    · omega
    · have hj : j - 1 + 1 = j := by omega
      rw [hj]
      exact hf
    · exact hf
    · omega
  · intro k g hk hg
    rw [List.getElem?_eraseIdx] at hg
    split_ifs at hk hg with hlt hki
    · exact hfirst k g (by omega) hg
    · exact hfirst (k + 1) g (by omega) hg
    · exact hfirst k g hk hg
    · omega

variable {q : Position}

theorem resolve_eraseIdx (h : resolve same enter fields path = some q) (hout : ¬ [.field i] <+: q) :
    resolve same enter (fields.eraseIdx i) path = some (shift [.field i] q) := by
  obtain ⟨name, rest, f, j, q', rfl, hfirst, rfl⟩ := resolve_some h
  have hne : j ≠ i := by
    rintro rfl
    exact hout (cons_prefix_cons.mpr ⟨rfl, nil_prefix⟩)
  have hshift : ∀ q : Position, shift [.field i] (.field j :: q) =
      .field (if i < j then j - 1 else j) :: q := by
    intro q
    rw [shift_last]
    split_ifs
    · rfl
    · rfl
  rw [resolve_cons, hfirst, Option.bind_some] at h
  rw [resolve_cons, firstNamed_eraseIdx hfirst hne, Option.bind_some, hshift]
  by_cases hrest : rest = []
  · rw [if_pos hrest] at h ⊢
    cases h
    rfl
  · rw [if_neg hrest] at h ⊢
    simp only at h ⊢
    cases hinside : enter f.type with
    | struct way child =>
      rw [hinside] at h
      simp only at h ⊢
      obtain ⟨r, hr, heq⟩ := Option.map_eq_some_iff.mp h
      cases heq
      rw [hr]
      rfl
    | values =>
      rw [hinside] at h
      cases h
      rfl
    | nothing =>
      rw [hinside] at h
      cases h

theorem firstNamed_set (h : firstNamed same name fields = some (f, j)) (hne : j ≠ i)
    (hfree : i < j → same f' name = false) :
    firstNamed same name (fields.set i f') = some (f, j) := by
  obtain ⟨hf, hsame, hfirst⟩ := firstNamed_iff.mp h
  apply firstNamed_iff.mpr
  refine ⟨?_, hsame, ?_⟩
  · rw [List.getElem?_set_ne hne.symm]
    exact hf
  · intro k g hk hg
    by_cases hki : i = k
    · subst hki
      obtain ⟨hlt, -⟩ := List.getElem?_eq_some_iff.mp hf
      rw [List.getElem?_set_self (by omega), Option.some.injEq] at hg
      exact hg ▸ hfree hk
    · rw [List.getElem?_set_ne hki] at hg
      exact hfirst k g hk hg

theorem resolve_set (h : resolve same enter fields path = some (.field j :: q)) (hne : j ≠ i)
    (hfree : i < j → ∀ name ∈ path.head?, same f' name = false) :
    resolve same enter (fields.set i f') path = some (.field j :: q) := by
  obtain ⟨name, rest, f, k, q', rfl, hfirst, heq⟩ := resolve_some h
  cases heq
  rw [← h]
  exact resolve_congr hfirst (firstNamed_set hfirst hne fun hlt => hfree hlt name rfl) rfl

theorem firstNamed_set_same (hf : fields[i]? = some f) (hsame : same f' name = same f name) :
    firstNamed same name (fields.set i f') =
      (firstNamed same name fields).map fun e => (if e.2 = i then f' else e.1, e.2) := by
  obtain ⟨hlt, -⟩ := List.getElem?_eq_some_iff.mp hf
  cases hfirst : firstNamed same name fields with
  | none =>
    rw [Option.map_none, firstNamed_none]
    intro g hg
    rw [firstNamed_none] at hfirst
    rcases mem_or_eq_of_mem_set hg with hg | rfl
    · exact hfirst g hg
    · rw [hsame]
      exact hfirst f (mem_of_getElem? hf)
  | some e =>
    obtain ⟨g, j⟩ := e
    obtain ⟨hg, hname, hbefore⟩ := firstNamed_iff.mp hfirst
    rw [Option.map_some]
    apply firstNamed_iff.mpr
    have hearlier : ∀ k g', k < j → (fields.set i f')[k]? = some g' → same g' name = false := by
      intro k g' hk hg'
      by_cases hki : i = k
      · subst hki
        rw [List.getElem?_set_self hlt, Option.some.injEq] at hg'
        rw [← hg', hsame]
        exact hbefore i f hk hf
      · rw [List.getElem?_set_ne hki] at hg'
        exact hbefore k g' hk hg'
    by_cases hj : j = i
    · subst hj
      rw [hf, Option.some.injEq] at hg
      subst hg
      simp only [if_true]
      exact ⟨by rw [List.getElem?_set_self hlt], hsame.trans hname, hearlier⟩
    · simp only [if_neg hj]
      refine ⟨?_, hname, hearlier⟩
      rw [List.getElem?_set_ne (Ne.symm hj)]
      exact hg

theorem resolve_set_same (hf : fields[i]? = some f) (htype : f'.type = f.type)
    (hsame : ∀ name, same f' name = same f name) (path : List String) :
    resolve same enter (fields.set i f') path = resolve same enter fields path := by
  cases path with
  | nil => rfl
  | cons name rest =>
    have hfirst : firstNamed same name (fields.set i f') =
        (firstNamed same name fields).map fun e => (if e.2 = i then f' else e.1, e.2) :=
      firstNamed_set_same hf (hsame name)
    cases hold : firstNamed same name fields with
    | none =>
      rw [hold, Option.map_none] at hfirst
      rw [resolve_cons, resolve_cons, hold, hfirst]
    | some e =>
      obtain ⟨g, j⟩ := e
      rw [hold, Option.map_some] at hfirst
      refine resolve_congr hold hfirst ?_
      by_cases hj : j = i
      · subst hj
        obtain ⟨hg, -, -⟩ := firstNamed_iff.mp hold
        rw [hf, Option.some.injEq] at hg
        subst hg
        simpa using htype
      · simp [hj]

theorem resolve_set_ne (hnot : ∀ name ∈ path.head?, same f' name = false)
    (h : resolve same enter (fields.set i f') path = some (.field i :: q)) : False := by
  obtain ⟨name, rest, f, k, q', rfl, hfirst, heq⟩ := resolve_some h
  cases heq
  obtain ⟨hf, hname, -⟩ := firstNamed_iff.mp hfirst
  obtain ⟨hlt, -⟩ := List.getElem?_eq_some_iff.mp hf
  rw [length_set] at hlt
  rw [List.getElem?_set_self hlt, Option.some.injEq] at hf
  subst hf
  rw [hnot name rfl] at hname
  cases hname

theorem resolve_set_captured (hlt : i < j) (hi : i < fields.length)
    (hmeans : ∀ name ∈ path.head?, same f' name = true)
    (h : resolve same enter (fields.set i f') path = some (.field j :: q)) : False := by
  obtain ⟨name, rest, f, k, q', rfl, hfirst, heq⟩ := resolve_some h
  cases heq
  obtain ⟨-, -, hbefore⟩ := firstNamed_iff.mp hfirst
  have hno := hbefore i f' hlt (List.getElem?_set_self hi)
  rw [hmeans name rfl] at hno
  cases hno

/-- The fields of the struct that a way of fields leads to. -/
def DataType.structAt : Position → DataType → Option (List Field)
  | [], .struct fields => some fields
  | .field k :: rest, .struct fields => fields[k]?.bind fun f => f.type.structAt rest
  | _, _ => none

theorem structAt_struct {t : DataType} {pre : Position} {cont : List Field}
    (h : t.structAt pre = some cont) : t = .struct t.fields := by
  cases t with
  | struct fields => rfl
  | _ =>
    cases pre with
    | nil => cases h
    | cons s pre => cases s <;> cases h

theorem replaceNth_set {α : Type} {l : List α} {a b : α} {g : α → List α} (h : l[i]? = some a)
    (hg : g a = [b]) : replaceNth i g l = l.set i b := by
  obtain ⟨as, bs, rfl, rfl⟩ := exists_split h
  rw [replaceNth_split, hg]
  simp

theorem replaceNth_eraseIdx {α : Type} (l : List α) (i : Nat) :
    replaceNth i (fun _ => []) l = l.eraseIdx i := by
  cases h : l[i]? with
  | none =>
    rw [replaceNth_none h, eraseIdx_of_length_le (List.getElem?_eq_none_iff.mp h)]
  | some a =>
    obtain ⟨as, bs, rfl, rfl⟩ := exists_split h
    rw [replaceNth_split, eraseIdx_append_of_length_le (le_refl _)]
    simp

theorem update_struct {k : Nat} {rest : Position} (hf : fields[k]? = some f) (hrest : rest ≠ [])
    (g : Field → List Field) :
    (DataType.struct fields).update g (.field k :: rest) =
      .struct (fields.set k { f with type := f.type.update g rest }) := by
  rw [DataType.update]
  simp only [if_neg hrest]
  rw [replaceNth_set hf rfl]

theorem resolve_inside (henter : ∀ fields, enter (.struct fields) = .struct [] fields) {j : Nat}
    {name : String} {rest : List String} {inner : List Field}
    (hfirst : firstNamed same name fields = some (f, j)) (hrest : rest ≠ [])
    (htype : f.type = .struct inner) :
    resolve same enter fields (name :: rest) =
      (resolve same enter inner rest).map fun q => .field j :: q := by
  rw [resolve_cons, hfirst, Option.bind_some, if_neg hrest]
  simp only
  rw [htype, henter]
  rfl

theorem update_eq_struct {t : DataType} (ht : t = .struct t.fields) (g : Field → List Field)
    (pre : Position) (i : Nat) :
    t.update g (pre ++ [.field i]) = .struct (t.update g (pre ++ [.field i])).fields := by
  rw [ht]
  cases pre with
  | nil => rfl
  | cons s pre => cases s <;> rfl

variable (enter) in
/-- A path whose first name is another column's leads where it led, and not into this one. -/
theorem resolve_elsewhere {k : Nat} {name : String} (hf : fields[k]? = some f)
    (hsame : ∀ t, same { f with type := t } name = same f name)
    (hnot : firstNamed same name fields ≠ some (f, k)) (rest : List String) :
    (∀ t, resolve same enter (fields.set k { f with type := t }) (name :: rest) =
      resolve same enter fields (name :: rest)) ∧
    ∀ q, resolve same enter fields (name :: rest) ≠ some (.field k :: q) := by
  have hother : ∀ g j, firstNamed same name fields = some (g, j) → j ≠ k := by
    rintro g j hfirst rfl
    obtain ⟨hg, -, -⟩ := firstNamed_iff.mp hfirst
    rw [hf, Option.some.injEq] at hg
    exact hnot (hg ▸ hfirst)
  constructor
  · intro t
    have hset := firstNamed_set_same hf (hsame t)
    cases hfirst : firstNamed same name fields with
    | none =>
      rw [hfirst, Option.map_none] at hset
      rw [resolve_cons, resolve_cons, hset, hfirst]
    | some e =>
      rw [hfirst, Option.map_some, if_neg (hother e.1 e.2 hfirst)] at hset
      exact resolve_congr hfirst hset rfl
  · intro q h
    obtain ⟨_, _, g, j, _, hpath, hfirst, hq⟩ := resolve_some h
    cases hpath
    cases hq
    exact hother g k hfirst rfl

theorem resolve_update (hsame : ∀ (f : Field) t name, same { f with type := t } name = same f name)
    (henter : ∀ fields, enter (.struct fields) = .struct [] fields)
    {t : DataType} {pre : Position} {cont : List Field} (hcont : t.structAt pre = some cont)
    (path : List String) :
    ((∀ g i, resolve same enter (t.update g (pre ++ [.field i])).fields path =
        resolve same enter t.fields path) ∧
      ∀ j q, resolve same enter t.fields path ≠ some (pre ++ .field j :: q)) ∨
    (path.drop pre.length ≠ [] ∧
      resolve same enter t.fields path =
        (resolve same enter cont (path.drop pre.length)).map (pre ++ ·) ∧
      ∀ g i, resolve same enter (t.update g (pre ++ [.field i])).fields path =
        (resolve same enter (replaceNth i g cont) (path.drop pre.length)).map (pre ++ ·)) := by
  induction pre generalizing t path with
  | nil =>
    cases t with
    | struct fields =>
      cases hcont
      cases path with
      | nil =>
        left
        refine ⟨fun _ _ => rfl, ?_⟩
        intro j q h
        cases h
      | cons name rest =>
        right
        refine ⟨by simp, by simp, ?_⟩
        intro g i
        simp [DataType.update]
    | _ => cases hcont
  | cons s pre ih =>
    have hstruct := structAt_struct hcont
    rw [hstruct] at hcont ⊢
    cases s with
    | element | key | value => cases hcont
    | field k =>
      obtain ⟨f, hf, hthere⟩ := Option.bind_eq_some_iff.mp hcont
      have hlong : ∀ i, pre ++ [Step.field i] ≠ [] := by simp
      have hupdate : ∀ g i, (DataType.struct t.fields).update g
          (.field k :: pre ++ [.field i]) = .struct (t.fields.set k
            { f with type := f.type.update g (pre ++ [.field i]) }) :=
        fun g i => update_struct hf (hlong i) g
      simp only [hupdate, DataType.fields_struct]
      cases path with
      | nil =>
        left
        refine ⟨fun _ _ => rfl, ?_⟩
        intro j q h
        cases h
      | cons name rest =>
        by_cases hfirst : firstNamed same name t.fields = some (f, k)
        · have hnew : ∀ u, firstNamed same name (t.fields.set k { f with type := u }) =
              some ({ f with type := u }, k) := by
            intro u
            rw [firstNamed_set_same hf (hsame f u name), hfirst, Option.map_some, if_pos rfl]
          by_cases hrest : rest = []
          · left
            subst hrest
            refine ⟨?_, ?_⟩
            · intro g i
              rw [resolve_cons, resolve_cons, hfirst, hnew]
              rfl
            · intro i q heq
              rw [resolve_cons, hfirst] at heq
              simp at heq
          · have hchild := structAt_struct hthere
            have hinner := resolve_inside henter hfirst hrest hchild
            have hinner' : ∀ g i, resolve same enter (t.fields.set k
                { f with type := f.type.update g (pre ++ [.field i]) }) (name :: rest) =
                (resolve same enter (f.type.update g (pre ++ [.field i])).fields rest).map
                  fun q => .field k :: q :=
              fun g i => resolve_inside henter (hnew _) hrest (update_eq_struct hchild g pre i)
            rcases ih hthere rest with ⟨hsame', hout⟩ | ⟨hne, hold, hnew'⟩
            · left
              refine ⟨?_, ?_⟩
              · intro g i
                rw [hinner, hinner', hsame']
              · intro i q heq
                rw [hinner] at heq
                obtain ⟨p, hp, heq⟩ := Option.map_eq_some_iff.mp heq
                cases heq
                exact hout i q hp
            · right
              refine ⟨hne, ?_, ?_⟩
              · rw [hinner, hold, Option.map_map]
                rfl
              · intro g i
                rw [hinner', hnew', Option.map_map]
                rfl
        · left
          obtain ⟨hsame', hout⟩ :=
            resolve_elsewhere enter hf (fun u => hsame f u name) hfirst rest
          exact ⟨fun _ _ => hsame' _, fun _ _ => hout _⟩

end

end DeltaSwamp.Metadata
