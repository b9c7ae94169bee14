import DeltaSwamp.Metadata.Declared
import DeltaSwamp.Metadata.Evolution
import DeltaSwamp.Metadata.Resolve

/-!
# A column dropped or renamed

Where names lead, which expressions fields keep and which clustering keys still
lead to their columns after one field of a struct is gone or has another name.

What `_references` finds in a text: the name bare or in backticks, letter case
aside, neither right after a letter, a digit, an underscore or a backtick nor
right before one of the first three.
-/

namespace DeltaSwamp.Metadata

open List

section
variable (py : Python)

/-- A text is the name, letter case aside. -/
def Spells (name text : List Char) : Prop :=
  List.Forall₂ (fun c d => py.sameLetter c d = true) name text

/-- The text mentions the name plainly. -/
def PlainMention (text name : List Char) : Prop :=
  ∃ before opening spelled closing after,
    text = before ++ (opening ++ (spelled ++ (closing ++ after))) ∧
    (opening = [] ∨ opening = [backtick]) ∧ (closing = [] ∨ closing = [backtick]) ∧
    Spells py name spelled ∧ (∀ c ∈ before.getLast?, wordChar c = false ∧ c ≠ backtick) ∧
    endsWord after = true

end

section
variable {py : Python}

variable {name text : List Char}

theorem dropName_iff {rest : List Char} :
    dropName py name text = some rest ↔
      ∃ spelled, text = spelled ++ rest ∧ Spells py name spelled := by
  induction name generalizing text with
  | nil =>
    constructor
    · intro h
      cases h
      exact ⟨[], rfl, .nil⟩
    · rintro ⟨spelled, rfl, hspelled⟩
      cases hspelled
      rfl
  | cons c name ih =>
    constructor
    · intro h
      cases text with
      | nil => cases h
      | cons d text =>
        rw [dropName] at h
        split_ifs at h with hsame
        obtain ⟨spelled, rfl, hspelled⟩ := ih.mp h
        exact ⟨d :: spelled, rfl, .cons hsame hspelled⟩
    · rintro ⟨spelled, rfl, hspelled⟩
      cases hspelled with
      | cons hsame hrest =>
        rw [cons_append, dropName, if_pos hsame]
        exact ih.mpr ⟨_, rfl, hrest⟩

theorem head?_eq_backtick (h : text.head? = some backtick) : ∃ rest, text = [backtick] ++ rest := by
  cases text with
  | nil => cases h
  | cons c rest =>
    cases h
    exact ⟨rest, rfl⟩

theorem mentionHere_iff :
    mentionHere py name text = true ↔ ∃ opening spelled closing after,
      text = opening ++ (spelled ++ (closing ++ after)) ∧
      (opening = [] ∨ opening = [backtick]) ∧ (closing = [] ∨ closing = [backtick]) ∧
      Spells py name spelled ∧ endsWord after = true := by
  have hname : ∀ text : List Char, ((dropName py name text).any fun rest =>
      endsWord rest || (rest.head? = some backtick && endsWord rest.tail)) = true ↔
      ∃ spelled closing after, text = spelled ++ (closing ++ after) ∧
        (closing = [] ∨ closing = [backtick]) ∧ Spells py name spelled ∧ endsWord after = true := by
    intro text
    rw [Option.any_eq_true]
    constructor
    · rintro ⟨rest, hrest, hend⟩
      obtain ⟨spelled, rfl, hspelled⟩ := dropName_iff.mp hrest
      rw [Bool.or_eq_true, Bool.and_eq_true, decide_eq_true_eq] at hend
      rcases hend with hend | ⟨hquote, hend⟩
      · exact ⟨spelled, [], rest, rfl, .inl rfl, hspelled, hend⟩
      · obtain ⟨after, rfl⟩ := head?_eq_backtick hquote
        exact ⟨spelled, [backtick], after, rfl, .inr rfl, hspelled, hend⟩
    · rintro ⟨spelled, closing, after, rfl, hclosing, hspelled, hend⟩
      refine ⟨closing ++ after, dropName_iff.mpr ⟨spelled, rfl, hspelled⟩, ?_⟩
      rcases hclosing with rfl | rfl
      · simp [hend]
      · simp [hend]
  rw [mentionHere, Bool.or_eq_true, Bool.and_eq_true, hname, decide_eq_true_eq, hname]
  constructor
  · rintro (⟨spelled, closing, after, rfl, hclosing, hspelled, hend⟩ |
      ⟨hquote, spelled, closing, after, htail, hclosing, hspelled, hend⟩)
    · exact ⟨[], spelled, closing, after, rfl, .inl rfl, hclosing, hspelled, hend⟩
    · obtain ⟨rest, rfl⟩ := head?_eq_backtick hquote
      refine ⟨[backtick], spelled, closing, after, ?_, .inr rfl, hclosing, hspelled, hend⟩
      rw [← htail]
      rfl
  · rintro ⟨opening, spelled, closing, after, rfl, rfl | rfl, hclosing, hspelled, hend⟩
    · exact .inl ⟨spelled, closing, after, rfl, hclosing, hspelled, hend⟩
    · exact .inr ⟨rfl, spelled, closing, after, rfl, hclosing, hspelled, hend⟩

/-- Nothing the look-behind forbids stands right before the place. -/
def Unattached (left : Option Char) : Prop := ∀ c ∈ left, wordChar c = false ∧ c ≠ backtick

theorem unattached_iff {left : Option Char} :
    (!left.any fun c => wordChar c || c = backtick) = true ↔ Unattached left := by
  cases left with
  | none => simp [Unattached]
  | some c => simp [Unattached]

theorem mentions_iff {left : Option Char} :
    mentions py name left text = true ↔ ∃ before rest, text = before ++ rest ∧
      Unattached (before.getLast?.or left) ∧ mentionHere py name rest = true := by
  induction text generalizing left with
  | nil =>
    rw [mentions, Bool.and_eq_true, unattached_iff]
    constructor
    · rintro ⟨hleft, hhere⟩
      exact ⟨[], [], rfl, hleft, hhere⟩
    · rintro ⟨before, rest, heq, hleft, hhere⟩
      obtain ⟨rfl, rfl⟩ := append_eq_nil_iff.mp heq.symm
      exact ⟨hleft, hhere⟩
  | cons c text ih =>
    rw [mentions, Bool.or_eq_true, Bool.and_eq_true, unattached_iff, ih]
    constructor
    · rintro (⟨hleft, hhere⟩ | ⟨before, rest, rfl, hleft, hhere⟩)
      · exact ⟨[], c :: text, rfl, hleft, hhere⟩
      · refine ⟨c :: before, rest, rfl, ?_, hhere⟩
        cases before with
        | nil => exact hleft
        | cons d before =>
          rw [List.getLast?_cons_cons]
          simpa [List.getLast?_cons] using hleft
    · rintro ⟨before, rest, heq, hleft, hhere⟩
      cases before with
      | nil =>
        rw [nil_append] at heq
        subst heq
        exact .inl ⟨hleft, hhere⟩
      | cons d before =>
        obtain ⟨rfl, rfl⟩ := List.cons.inj heq
        refine .inr ⟨before, rest, rfl, ?_, hhere⟩
        cases before with
        | nil => exact hleft
        | cons e before =>
          rw [List.getLast?_cons_cons] at hleft
          simpa [List.getLast?_cons] using hleft

theorem references_iff {expression name : String} :
    references py expression name = true ↔ PlainMention py expression.toList name.toList := by
  rw [references, mentions_iff]
  constructor
  · rintro ⟨before, rest, heq, hleft, hhere⟩
    obtain ⟨opening, spelled, closing, after, rfl, hopening, hclosing, hspelled, hend⟩ :=
      mentionHere_iff.mp hhere
    rw [Option.or_none] at hleft
    exact ⟨before, opening, spelled, closing, after, heq, hopening, hclosing, hspelled, hleft, hend⟩
  · rintro ⟨before, opening, spelled, closing, after, heq, hopening, hclosing, hspelled,
      hleft, hend⟩
    refine ⟨before, _, heq, ?_, ?_⟩
    · rw [Option.or_none]
      exact hleft
    · exact mentionHere_iff.mpr
        ⟨opening, spelled, closing, after, rfl, hopening, hclosing, hspelled, hend⟩

end

/-- The generation expression in a field's metadata. -/
def generationOf (metadata : Fields) : List String :=
  ((metadata.lookup generation).bind Json.asStr).toList

section
variable (py : Python) (loads : String → Option Json)

/-- The column invariant in a field's metadata, as `TableValues.of` reads it. -/
def invariantOf (metadata : Fields) : List String :=
  let parsed := match metadata.lookup "delta.invariants" with
    | some (.str raw) => loads raw
    | raw => raw
  (((parsed.bind fun j => j.get "expression").bind fun j => j.get "expression").bind
    Json.asStr).toList

/-- `table_constraints`: the prefix of a key in any letter case. -/
def constraintsOf (config : Config) : Config :=
  config.filter fun e => startsWith (py.lower e.1) constraintsPrefix

/-- The SQL expressions of a table. -/
def expressions (state : TableState) : List String :=
  (constraintsOf py state.configuration).map Prod.snd ++
    state.schema.walk.flatMap (fun f => generationOf f.metadata) ++
    state.schema.walk.flatMap fun f => invariantOf loads f.metadata

/-- The paths in `delta.dataSkippingStatsColumns`. -/
def statsPaths (listed : String) : Except Refused (List (List String)) :=
  (((entries listed).map (strip py)).filter fun entry => entry ≠ "").mapM (splitIdentifier py)

def sameName (f : Field) (name : String) : Bool := py.lower f.name = py.lower name

def samePhysical (f : Field) (name : String) : Bool := physicalName f = name

/-- The field a reference in SQL names. -/
def sqlColumn (schema : DataType) (reference : List String) : Option Position :=
  resolve (sameName py) DataType.inValues schema.fields reference

/-- The field a logical path names. -/
def pathColumn (schema : DataType) (path : List String) : Option Position :=
  (find py schema.fields path).toOption.map Found.position

/-- The field a clustering key names. -/
def keyColumn (schema : DataType) (key : List String) : Option Position :=
  resolve samePhysical DataType.inStruct schema.fields key

end

section
variable {py : Python} {state : TableState}

theorem firstNamed_sameName (name : String) (fields : List Field) :
    firstNamed (sameName py) name fields =
      fields.zipIdx.find? fun e => py.lower e.1.name = py.lower name := rfl

theorem resolve_find (fields : List Field) (path : List String) :
    resolve (sameName py) DataType.inStruct fields path =
      (find py fields path).toOption.map Found.position := by
  induction path generalizing fields with
  | nil => rfl
  | cons name rest ih =>
    rw [resolve_cons, firstNamed_sameName, find]
    cases fields.zipIdx.find? fun e => py.lower e.1.name = py.lower name with
    | none => rfl
    | some e =>
      obtain ⟨f, i⟩ := e
      rw [Option.bind_some]
      by_cases hrest : rest = []
      · simp only [if_pos hrest]
        rfl
      · simp only [if_neg hrest]
        cases f.type with
        | struct child =>
          simp only [DataType.inStruct, ih]
          cases find py child rest with
          | error e => rfl
          | ok found => rfl
        | _ => rfl

theorem find_structAt {fields : List Field} {path : List String} {found : Found}
    (h : find py fields path = .ok found) : ∃ pre, found.position = pre ++ [.field found.index] ∧
      (DataType.struct fields).structAt pre = some found.container ∧
      pre.length + 1 = path.length := by
  induction path generalizing fields found with
  | nil => cases h
  | cons name rest ih =>
    rw [find] at h
    split at h
    · cases h
    · rename_i f i hfind
      have hfirst : firstNamed (sameName py) name fields = some (f, i) := hfind
      have hfield : fields[i]? = some f := (firstNamed_iff.mp hfirst).1
      by_cases hrest : rest = []
      · rw [if_pos hrest] at h
        cases h
        subst hrest
        exact ⟨[], rfl, rfl, rfl⟩
      · rw [if_neg hrest] at h
        split at h
        · rename_i child htype
          obtain ⟨r, hr, rfl⟩ := Result.map_eq_ok_iff.mp h
          obtain ⟨pre, hposition, hcont, hlength⟩ := ih hr
          refine ⟨.field i :: pre, ?_, ?_, ?_⟩
          · simp only [hposition]
            rfl
          · rw [DataType.structAt, hfield, Option.bind_some, htype]
            exact hcont
          · simp only [length_cons]
            omega
        · cases h

end

theorem shift_append (pre q : Position) (i : Nat) :
    shift (pre ++ [.field i]) (pre ++ q) = pre ++ shift [.field i] q := by
  induction pre with
  | nil => rfl
  | cons s pre ih =>
    rw [cons_append, cons_append, shift_cons (by simp), if_pos rfl, ih]
    rfl

theorem shift_apart {pre p : Position} {i : Nat} (h : ∀ j q, p ≠ pre ++ .field j :: q) :
    shift (pre ++ [.field i]) p = p := by
  induction pre generalizing p with
  | nil =>
    cases p with
    | nil => rfl
    | cons s q =>
      cases s with
      | field j => exact absurd rfl (h j q)
      | element | key | value => rfl
  | cons s pre ih =>
    cases p with
    | nil => simp
    | cons s' q =>
      rw [cons_append, shift_cons (by simp)]
      split_ifs with hs
      · subst hs
        rw [ih]
        intro j r heq
        exact h j r (by rw [heq]; rfl)
      · rfl

theorem prefix_iff {pre p : Position} {i : Nat} :
    pre ++ [.field i] <+: p ↔ ∃ q, p = pre ++ .field i :: q := by
  constructor
  · rintro ⟨q, rfl⟩
    exact ⟨q, by simp⟩
  · rintro ⟨q, rfl⟩
    exact ⟨q, by simp⟩

section
variable {same : Field → String → Bool} {enter : DataType → Inside} {t : DataType}
  {pre p : Position} {cont : List Field} {f f' : Field} {i : Nat} {path : List String}

theorem resolve_dropped (hsame : ∀ (f : Field) t name, same { f with type := t } name = same f name)
    (henter : ∀ fields, enter (.struct fields) = .struct [] fields)
    (hcont : t.structAt pre = some cont) (h : resolve same enter t.fields path = some p)
    (hout : ¬ pre ++ [.field i] <+: p) :
    resolve same enter (t.update (fun _ => []) (pre ++ [.field i])).fields path =
      some (shift (pre ++ [.field i]) p) := by
  rcases resolve_update hsame henter hcont path with ⟨hkept, hapart⟩ | ⟨-, hold, hnew⟩
  · rw [hkept, h, shift_apart]
    rintro j q rfl
    exact hapart j q h
  · rw [hold] at h
    obtain ⟨q, hq, rfl⟩ := Option.map_eq_some_iff.mp h
    have hq' : ¬ [.field i] <+: q := by
      rintro ⟨r, rfl⟩
      exact hout ⟨r, by simp⟩
    rw [hnew, replaceNth_eraseIdx, resolve_eraseIdx hq hq', shift_append]
    rfl

variable {g : Field → List Field}

theorem resolve_renamed
    (hsame : ∀ (f : Field) t name, same { f with type := t } name = same f name)
    (henter : ∀ fields, enter (.struct fields) = .struct [] fields)
    (hcont : t.structAt pre = some cont) (hf : cont[i]? = some f) (hg : g f = [f'])
    (h : resolve same enter t.fields path = some p) (hout : ¬ pre ++ [.field i] <+: p)
    (hfree : ∀ j q, p = pre ++ .field j :: q → i < j →
      ∀ name ∈ path[pre.length]?, same f' name = false) :
    resolve same enter (t.update g (pre ++ [.field i])).fields path = some p := by
  rcases resolve_update hsame henter hcont path with ⟨hkept, -⟩ | ⟨-, hold, hnew⟩
  · rw [hkept, h]
  · rw [hold] at h
    obtain ⟨q, hq, rfl⟩ := Option.map_eq_some_iff.mp h
    obtain ⟨name, rest, h', j, r, hdrop, -, rfl⟩ := resolve_some hq
    have hne : j ≠ i := by
      rintro rfl
      exact hout ⟨r, by simp⟩
    rw [hnew, replaceNth_set hf hg, resolve_set hq hne]
    · rfl
    · intro hlt name hname
      apply hfree j r rfl hlt
      rw [List.head?_drop] at hname
      exact hname

theorem resolve_renamed_same
    (hsame : ∀ (f : Field) t name, same { f with type := t } name = same f name)
    (henter : ∀ fields, enter (.struct fields) = .struct [] fields)
    (hcont : t.structAt pre = some cont) (hf : cont[i]? = some f) (hg : g f = [f'])
    (htype : f'.type = f.type) (hmeans : ∀ name, same f' name = same f name) :
    resolve same enter (t.update g (pre ++ [.field i])).fields path =
      resolve same enter t.fields path := by
  rcases resolve_update hsame henter hcont path with ⟨hkept, -⟩ | ⟨-, hold, hnew⟩
  · rw [hkept]
  · rw [hnew, hold, replaceNth_set hf hg, resolve_set_same hf htype hmeans]

theorem resolve_renamed_lost
    (hsame : ∀ (f : Field) t name, same { f with type := t } name = same f name)
    (henter : ∀ fields, enter (.struct fields) = .struct [] fields)
    (hcont : t.structAt pre = some cont) (hf : cont[i]? = some f) (hg : g f = [f'])
    (hnot : ∀ name, same f name = true → same f' name = false)
    (h : resolve same enter t.fields path = some p) (hthrough : pre ++ [.field i] <+: p) :
    resolve same enter (t.update g (pre ++ [.field i])).fields path ≠ some p := by
  obtain ⟨q, rfl⟩ := prefix_iff.mp hthrough
  rcases resolve_update hsame henter hcont path with ⟨-, hapart⟩ | ⟨-, hold, hnew⟩
  · exact absurd h (hapart i q)
  · rw [hold] at h
    obtain ⟨r, hr, heq⟩ := Option.map_eq_some_iff.mp h
    rw [append_cancel_left heq] at hr
    obtain ⟨name, rest, h', j, r', hdrop, hfirst, heq'⟩ := resolve_some hr
    cases heq'
    obtain ⟨hh, hname, -⟩ := firstNamed_iff.mp hfirst
    rw [hf, Option.some.injEq] at hh
    subst hh
    intro hafter
    rw [hnew, replaceNth_set hf hg] at hafter
    obtain ⟨r, hr, heq⟩ := Option.map_eq_some_iff.mp hafter
    rw [append_cancel_left heq] at hr
    refine resolve_set_ne ?_ hr
    intro name' hname'
    rw [hdrop] at hname'
    cases hname'
    exact hnot name hname

theorem resolve_renamed_captured
    (hsame : ∀ (f : Field) t name, same { f with type := t } name = same f name)
    (henter : ∀ fields, enter (.struct fields) = .struct [] fields)
    (hcont : t.structAt pre = some cont) (hf : cont[i]? = some f) (hg : g f = [f'])
    {j : Nat} {q : Position} (hlt : i < j) {name : String} (hname : path[pre.length]? = some name)
    (hmeans : same f' name = true) :
    resolve same enter (t.update g (pre ++ [.field i])).fields path ≠
      some (pre ++ .field j :: q) := by
  intro hafter
  rcases resolve_update hsame henter hcont path with ⟨hkept, hapart⟩ | ⟨-, -, hnew⟩
  · rw [hkept] at hafter
    exact hapart j q hafter
  · rw [hnew, replaceNth_set hf hg] at hafter
    obtain ⟨r, hr, heq⟩ := Option.map_eq_some_iff.mp hafter
    rw [append_cancel_left heq] at hr
    obtain ⟨hi, -⟩ := List.getElem?_eq_some_iff.mp hf
    refine resolve_set_captured hlt hi ?_ hr
    intro name' hname'
    rw [List.head?_drop, hname] at hname'
    cases hname'
    exact hmeans

end

theorem mem_replaceNth {α : Type} {i : Nat} {g : α → List α} {l : List α} {x : α} :
    x ∈ replaceNth i g l ↔ (∃ j, j ≠ i ∧ l[j]? = some x) ∨ ∃ a, l[i]? = some a ∧ x ∈ g a := by
  rw [← mem_eraseIdx_iff_getElem?, eraseIdx_eq_take_drop_succ, replaceNth]
  simp only [mem_append, mem_flatMap, Option.mem_toList]
  exact or_right_comm

section
variable {prim : String → List String} {own : Fields → List String} {t : DataType} {pre : Position}
  {cont : List Field} {i : Nat} {x : String}

theorem mem_markNames_at {fs : List Field} :
    x ∈ (DataType.struct fs).markNames prim own ↔
      ∃ (j : Nat) (f : Field), fs[j]? = some f ∧ x ∈ f.markNames prim own := by
  rw [mem_markNames_struct]
  constructor
  · rintro ⟨f, hf, hx⟩
    obtain ⟨j, hj⟩ := mem_iff_getElem?.mp hf
    exact ⟨j, f, hj, hx⟩
  · rintro ⟨j, f, hj, hx⟩
    exact ⟨f, mem_of_getElem? hj, hx⟩

theorem mem_marks_at {fs : List Field} {j : Nat} {f : Field} (hf : fs[j]? = some f)
    (hx : x ∈ f.markNames prim own) :
    ∃ s ∈ (DataType.struct fs).marks prim own, s.2 = x ∧ ∃ q, s.1 = .field j :: q := by
  rcases mem_append.mp hx with hx | hx
  · exact ⟨_, mem_marks_struct.mpr ⟨j, f, hf, .inl ⟨x, hx, rfl⟩⟩, rfl, [], rfl⟩
  · obtain ⟨s, hs, rfl⟩ := mem_map.mp hx
    exact ⟨_, mem_marks_struct.mpr ⟨j, f, hf, .inr ⟨s, hs, rfl⟩⟩, rfl, s.1, rfl⟩

/-- Changing one field leaves the marks outside it and brings in those of what it becomes. -/
theorem mem_markNames_updated (hcont : t.structAt pre = some cont) (g : Field → List Field) :
    x ∈ (t.update g (pre ++ [.field i])).markNames prim own ↔
      (∃ s ∈ t.marks prim own, ¬ pre ++ [.field i] <+: s.1 ∧ s.2 = x) ∨
      ∃ f, cont[i]? = some f ∧ ∃ f' ∈ g f, x ∈ f'.markNames prim own := by
  induction pre generalizing t with
  | nil =>
    cases t with
    | struct fields =>
      cases hcont
      simp only [nil_append, DataType.update, if_true, mem_markNames_struct,
        mem_replaceNth]
      constructor
      · rintro ⟨f, ⟨j, hj, hf⟩ | ⟨f₀, hf₀, hf⟩, hx⟩
        · obtain ⟨s, hs, rfl, q, hq⟩ := mem_marks_at hf hx
          refine .inl ⟨s, hs, ?_, rfl⟩
          rw [hq]
          intro hprefix
          exact hj (Step.field.inj (cons_prefix_cons.mp hprefix).1).symm
        · exact .inr ⟨f₀, hf₀, f, hf, hx⟩
      · rintro (⟨s, hs, hout, rfl⟩ | ⟨f, hf, f', hf', hx⟩)
        · obtain ⟨j, f, hf, hmark⟩ := mem_marks_struct.mp hs
          have hj : j ≠ i := by
            rintro rfl
            rcases hmark with ⟨x, -, rfl⟩ | ⟨s', -, rfl⟩
            · exact hout (prefix_refl _)
            · exact hout (cons_prefix_cons.mpr ⟨rfl, nil_prefix⟩)
          refine ⟨f, .inl ⟨j, hj, hf⟩, mem_append.mpr ?_⟩
          rcases hmark with ⟨x, hx, rfl⟩ | ⟨s', hs', rfl⟩
          · exact .inl hx
          · exact .inr (mem_map.mpr ⟨s', hs', rfl⟩)
        · exact ⟨f', .inr ⟨f, hf, hf'⟩, hx⟩
    | _ => cases hcont
  | cons s pre ih =>
    have hstruct := structAt_struct hcont
    rw [hstruct] at hcont ⊢
    cases s with
    | element | key | value => cases hcont
    | field k =>
      obtain ⟨f, hf, hthere⟩ := Option.bind_eq_some_iff.mp hcont
      rw [cons_append, update_struct hf (by simp), mem_markNames_at]
      obtain ⟨hlt, -⟩ := List.getElem?_eq_some_iff.mp hf
      have hinside : ∀ s' : Spot, (pre ++ [.field i] <+: s'.1 ↔
          .field k :: (pre ++ [.field i]) <+: (s'.under (.field k)).1) := by
        intro s'
        rw [Spot.under, cons_prefix_cons]
        simp
      constructor
      · rintro ⟨j, h, hh, hx⟩
        by_cases hj : k = j
        · subst hj
          rw [List.getElem?_set_self hlt, Option.some.injEq] at hh
          subst hh
          rcases mem_append.mp hx with hx | hx
          · left
            refine ⟨_, mem_marks_struct.mpr ⟨k, f, hf, .inl ⟨x, hx, rfl⟩⟩, ?_, rfl⟩
            intro hprefix
            have hnil := prefix_nil.mp (cons_prefix_cons.mp hprefix).2
            simp at hnil
          · rcases (ih hthere).mp hx with ⟨s', hs', hout, rfl⟩ | hnew
            · left
              refine ⟨_, mem_marks_struct.mpr ⟨k, f, hf, .inr ⟨s', hs', rfl⟩⟩, ?_, rfl⟩
              rw [← hinside]
              exact hout
            · exact .inr hnew
        · rw [List.getElem?_set_ne hj] at hh
          obtain ⟨s', hs', rfl, q, hq⟩ := mem_marks_at hh hx
          refine .inl ⟨s', hs', ?_, rfl⟩
          rw [hq]
          intro hprefix
          exact hj (Step.field.inj (cons_prefix_cons.mp hprefix).1)
      · rintro (⟨s', hs', hout, rfl⟩ | hnew)
        · obtain ⟨j, h, hh, hmark⟩ := mem_marks_struct.mp hs'
          by_cases hj : k = j
          · subst hj
            rw [hf, Option.some.injEq] at hh
            subst hh
            refine ⟨k, _, List.getElem?_set_self hlt, mem_append.mpr ?_⟩
            rcases hmark with ⟨x, hx, rfl⟩ | ⟨s'', hs'', rfl⟩
            · exact .inl hx
            · right
              apply (ih hthere).mpr
              left
              refine ⟨s'', hs'', ?_, rfl⟩
              rw [hinside]
              exact hout
          · refine ⟨j, h, by rw [List.getElem?_set_ne hj]; exact hh, mem_append.mpr ?_⟩
            rcases hmark with ⟨x, hx, rfl⟩ | ⟨s'', hs'', rfl⟩
            · exact .inl hx
            · exact .inr (mem_map.mpr ⟨s'', hs'', rfl⟩)
        · refine ⟨k, _, List.getElem?_set_self hlt, mem_append_right _ ?_⟩
          exact (ih hthere).mpr (.inr hnew)

end

end DeltaSwamp.Metadata
