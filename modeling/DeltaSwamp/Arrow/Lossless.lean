import DeltaSwamp.Arrow.Cast

/-!
# What a lossless cast keeps

A cast that comes back to the very values kept them; a dictionary's values are
kept if the target can hold them.
-/

namespace DeltaSwamp.Arrow

open List

inductive Family where
  | number
  | wallTime
  | instant
  deriving DecidableEq

def Plain.family : Plain → Option Family
  | .boolean | .int _ _ | .float _ | .decimal _ _ => some .number
  | .date32 | .date64 | .timestamp _ none => some .wallTime
  | .timestamp _ (some _) => some .instant
  | .text _ | .other _ => none

def Plain.isDecimal : Plain → Bool
  | .decimal _ _ => true
  | _ => false

/-- Types of one family, not a float and a decimal: casting to and fro cannot round twice. -/
def comparable (source target : Plain) : Bool :=
  source.family.isSome && source.family = target.family &&
    !(source.isFloat && target.isDecimal) && !(source.isDecimal && target.isFloat)

def Plain.limit : Plain → ℚ
  | .float format => format.limit
  | _ => 0

/-- Arrow's strict cast between two types fails, or truncates what the target has no place for. -/
structure Truncates (lib : Casts) (source target : Plain) : Prop where
  /-- a value that the target can hold is cast to itself -/
  exact : ∀ v u, source.Holds v → target.Holds u → denote target u = denote source v →
    ∃ w, lib.cast source target v = .ok w ∧ denote target w = denote source v
  /-- what a cast has left of a value is cast back as it is, if it is cast back -/
  returns : comparable source target = true → ∀ v w back, source.Holds v →
    lib.cast source target v = .ok w → lib.cast target source w = .ok back →
    denote source back = denote target w
  /-- a float is rounded to the nearest, or to infinity -/
  rounds : source.isFloat = true → target.isFloat = true → ∀ v w x, source.Holds v →
    denote source v = .number x → lib.cast source target v = .ok w →
    ((denote target w).isFinite = true ↔ |x| < target.limit)

section
variable (lib : Casts) (source target : Plain)

/-- The cast value denotes the same, or is a float rounded without overflow. -/
def Same (v w : Raw) : Prop :=
  denote target w = denote source v ∨
    (source.isFloat = true ∧ target.isFloat = true ∧ (denote source v).isFinite = true ∧
      (denote target w).isFinite = true ∧ lib.cast source target v = .ok w)

def SameSlot : Option Raw → Option Raw → Prop
  | none, none => True
  | some v, some w => Same lib source target v w
  | _, _ => False

/-- Row by row NULL for NULL and each value the same. -/
def Kept (array cast : Leaf) : Prop :=
  List.Forall₂ (SameSlot lib array.type.logical cast.type.logical) array.logical cast.logical

/-- The target can hold what the value denotes, or a float nearest to it. -/
def Fits (v : Raw) : Prop :=
  (∃ u, target.Holds u ∧ denote target u = denote source v) ∨
    (source.isFloat = true ∧ target.isFloat = true ∧
      ∃ x, denote source v = .number x ∧ |x| < target.limit)

end

section
variable {lib : Casts} {source target : Plain}

theorem castSlot_ok {a b : Option Raw} : castSlot lib source target a = .ok b ↔
    (a = none ∧ b = none) ∨ ∃ v w, a = some v ∧ b = some w ∧ lib.cast source target v = .ok w := by
  cases a with
  | none => simp [castSlot, eq_comm]
  | some v =>
    rw [castSlot, Result.map_eq_ok_iff]
    constructor
    · rintro ⟨w, hw, rfl⟩
      exact .inr ⟨v, w, rfl, rfl, hw⟩
    · rintro (⟨h, -⟩ | ⟨v', w, hv, rfl, hw⟩)
      · exact absurd h (Option.some_ne_none v)
      · exact ⟨w, Option.some.inj hv ▸ hw, rfl⟩

variable {casts : List (Option Raw)}

theorem castSlot_taken {values : List (Option Raw)}
    (h : List.Forall₂ (fun a b => castSlot lib source target a = .ok b) values casts)
    (key : Option Nat) : castSlot lib source target (taken values key) = .ok (taken casts key) := by
  cases key with
  | none => rfl
  | some k =>
    have hlength := h.length_eq
    by_cases hk : k < values.length
    · have hget := h.get hk (hlength ▸ hk)
      simpa [taken, hk, hlength ▸ hk] using hget
    · have hk' : ¬ k < casts.length := hlength ▸ hk
      simp [taken, List.getElem?_eq_none (Nat.le_of_not_lt hk),
        List.getElem?_eq_none (Nat.le_of_not_lt hk'), castSlot]

variable {array : Leaf}

theorem castArray_logical {cast : Leaf} {target : ArrowType}
    (h : castArray lib array target = .ok cast) :
    cast.type = target ∧
      List.Forall₂ (fun a b => castSlot lib array.type.logical target.logical a = .ok b)
        array.logical cast.logical := by
  cases array with
  | plain source slots =>
    cases target with
    | plain target =>
      obtain ⟨casts, hcasts, h⟩ := Result.bind_eq_ok_iff.mp h
      rw [Result.pure_eq_ok_iff] at h
      subst h
      exact ⟨rfl, Result.forall₂_of_mapM_ok hcasts⟩
    | dictionary key target =>
      obtain ⟨casts, hcasts, h⟩ := Result.bind_eq_ok_iff.mp h
      obtain ⟨⟨keys, values⟩, hpack, h⟩ := Result.bind_eq_ok_iff.mp h
      rw [Result.pure_eq_ok_iff] at h
      subst h
      refine ⟨rfl, ?_⟩
      change List.Forall₂ _ slots (keys.map (taken values))
      rw [lib.pack_taken key casts keys values hpack]
      exact Result.forall₂_of_mapM_ok hcasts
  | dictionary key source keys values =>
    have hrows : ∀ casts, values.mapM (castSlot lib source target.logical) = .ok casts →
        List.Forall₂ (fun a b => castSlot lib source target.logical a = .ok b)
          (keys.map (taken values)) (keys.map (taken casts)) := by
      intro casts hcasts
      rw [forall₂_map_left_iff, forall₂_map_right_iff, forall₂_same]
      intro key _
      exact castSlot_taken (Result.forall₂_of_mapM_ok hcasts) key
    cases target with
    | plain target =>
      obtain ⟨casts, hcasts, h⟩ := Result.bind_eq_ok_iff.mp h
      rw [Result.pure_eq_ok_iff] at h
      subst h
      exact ⟨rfl, hrows casts hcasts⟩
    | dictionary key target =>
      obtain ⟨casts, hcasts, h⟩ := Result.bind_eq_ok_iff.mp h
      obtain ⟨_, -, h⟩ := Result.bind_eq_ok_iff.mp h
      rw [Result.pure_eq_ok_iff] at h
      subst h
      exact ⟨rfl, hrows casts hcasts⟩

variable {v : Raw}

theorem Leaf.Valid.holds (h : array.Valid) (hv : some v ∈ array.logical) :
    array.type.logical.Holds v := by
  cases array with
  | plain type slots => exact h v hv
  | dictionary key type keys values =>
    obtain ⟨slot, -, htaken⟩ := mem_map.mp hv
    obtain ⟨k, -, hk⟩ := Option.bind_eq_some_iff.mp htaken
    rw [Option.join_eq_some_iff] at hk
    exact h v (mem_of_getElem? hk)

theorem denoteFloat_finite {x : FloatValue} (h : (denoteFloat x).isFinite = true) :
    ∃ q, denoteFloat x = .number q := by
  cases x with
  | nan | negInf | posInf => exact absurd h Bool.false_ne_true
  | negZero => exact ⟨0, rfl⟩
  | fin q => exact ⟨q, rfl⟩

theorem float_holds {format : FloatFormat} (format' : FloatFormat)
    (hv : (Plain.float format).Holds v) (h : (denote (.float format) v).isFinite = false) :
    (Plain.float format').Holds v ∧ denote (.float format') v = denote (.float format) v := by
  cases v with
  | float x =>
    refine ⟨?_, rfl⟩
    cases x with
    | nan | negInf | posInf | negZero => trivial
    | fin q => exact absurd h (by simp [denote, denoteFloat, Denoted.isFinite])
  | bool | int | text | bytes => exact hv.elim

theorem isFloat_iff {type : Plain} : type.isFloat = true ↔ ∃ format, type = .float format := by
  cases type <;> simp [Plain.isFloat]

theorem float_number (hsource : source.isFloat = true) (hv : source.Holds v)
    (h : (denote source v).isFinite = true) : ∃ x, denote source v = .number x := by
  obtain ⟨format, rfl⟩ := isFloat_iff.mp hsource
  cases v with
  | float x => exact denoteFloat_finite h
  | bool | int | text | bytes => exact hv.elim

theorem same_iff_fits (hlaws : Truncates lib source target) {w : Raw} (hv : source.Holds v)
    (hcast : lib.cast source target v = .ok w) :
    Same lib source target v w ↔ Fits source target v := by
  constructor
  · rintro (hsame | ⟨hsource, htarget, hfinite, hround, -⟩)
    · exact .inl ⟨w, lib.cast_holds _ _ _ _ hcast, hsame⟩
    · obtain ⟨x, hx⟩ := float_number hsource hv hfinite
      exact .inr ⟨hsource, htarget, x, hx,
        (hlaws.rounds hsource htarget v w x hv hx hcast).mp hround⟩
  · rintro (⟨u, hu, hdenote⟩ | ⟨hsource, htarget, x, hx, hlimit⟩)
    · obtain ⟨w', hcast', hsame⟩ := hlaws.exact v u hv hu hdenote
      rw [hcast, Except.ok.injEq] at hcast'
      exact .inl (hcast' ▸ hsame)
    · refine .inr ⟨hsource, htarget, by rw [hx]; rfl, ?_, hcast⟩
      exact (hlaws.rounds hsource htarget v w x hv hx hcast).mpr hlimit

variable {rows : List (Option Raw)}

theorem rows_kept_iff (hlaws : Truncates lib source target)
    (hvalid : ∀ v, some v ∈ rows → source.Holds v)
    (hcasts : List.Forall₂ (fun a b => castSlot lib source target a = .ok b) rows casts) :
    List.Forall₂ (SameSlot lib source target) rows casts ↔
      ∀ v, some v ∈ rows → Fits source target v := by
  induction hcasts with
  | nil => simp
  | @cons a b rows casts hcast hrest ih =>
    rw [forall₂_cons, ih fun v hv => hvalid v (mem_cons_of_mem _ hv)]
    obtain ⟨rfl, rfl⟩ | ⟨v, w, rfl, rfl, hw⟩ := castSlot_ok.mp hcast
    · simp [SameSlot]
    · have hslot : SameSlot lib source target (some v) (some w) ↔ Fits source target v :=
        same_iff_fits hlaws (hvalid v mem_cons_self) hw
      simp [hslot]

/-- Where each `p` gives a `q` and there are as many of one as of the other, each `q` comes of
a `p`. -/
theorem forall₂_of_countP_eq {α β : Type} {p : α → Bool} {q : β → Bool} {xs : List α}
    {ys : List β} (h : List.Forall₂ (fun x y => p x = true → q y = true) xs ys)
    (hcount : ys.countP q = xs.countP p) :
    List.Forall₂ (fun x y => q y = true → p x = true) xs ys := by
  have hle : ∀ {xs ys}, List.Forall₂ (fun (x : α) (y : β) => p x = true → q y = true) xs ys →
      xs.countP p ≤ ys.countP q := by
    intro xs ys h
    induction h with
    | nil => exact Nat.le_refl _
    | @cons x y xs ys hxy _ ih =>
      rw [countP_cons, countP_cons]
      by_cases hx : p x = true
      · simp [hx, hxy hx, ih]
      · rw [if_neg hx]
        omega
  induction h with
  | nil => exact List.Forall₂.nil
  | @cons x y xs ys hxy hrest ih =>
    rw [countP_cons, countP_cons] at hcount
    have hrestLe := hle hrest
    by_cases hx : p x = true
    · rw [if_pos hx, if_pos (hxy hx)] at hcount
      exact List.Forall₂.cons (fun _ => hx) (ih (by omega))
    · rw [if_neg hx] at hcount
      by_cases hy : q y = true
      · rw [if_pos hy] at hcount
        omega
      · rw [if_neg hy] at hcount
        exact List.Forall₂.cons (fun h => absurd h hy) (ih (by omega))

def nonFinite (type : Plain) (slot : Option Raw) : Bool :=
  slot.any fun v => !(denote type v).isFinite

theorem floats_kept (hlaws : Truncates lib source target) (hsource : source.isFloat = true)
    (htarget : target.isFloat = true) (hvalid : ∀ v, some v ∈ rows → source.Holds v)
    (hcasts : List.Forall₂ (fun a b => castSlot lib source target a = .ok b) rows casts)
    (hcount : casts.countP (nonFinite target) = rows.countP (nonFinite source)) :
    List.Forall₂ (SameSlot lib source target) rows casts := by
  have hspecial : ∀ v w, source.Holds v → lib.cast source target v = .ok w →
      (denote source v).isFinite = false → denote target w = denote source v := by
    intro v w hv hw hfinite
    obtain ⟨format, rfl⟩ := isFloat_iff.mp hsource
    obtain ⟨format', rfl⟩ := isFloat_iff.mp htarget
    obtain ⟨hholds, hsame⟩ := float_holds format' hv hfinite
    obtain ⟨w', hw', hdenote⟩ := hlaws.exact v v hv hholds hsame
    rw [hw, Except.ok.injEq] at hw'
    exact hw' ▸ hdenote
  have hrows : List.Forall₂ (fun a b => (∀ v, a = some v → source.Holds v) ∧
      castSlot lib source target a = .ok b) rows casts :=
    (forall₂_and_left rows casts).mpr ⟨fun a ha v hv => hvalid v (hv ▸ ha), hcasts⟩
  have hup : List.Forall₂ (fun a b => nonFinite source a = true → nonFinite target b = true)
      rows casts := by
    refine hrows.imp fun a b hab ha => ?_
    obtain ⟨rfl, rfl⟩ | ⟨v, w, rfl, rfl, hw⟩ := castSlot_ok.mp hab.2
    · exact ha
    · have hfinite : (denote source v).isFinite = false := by simpa [nonFinite] using ha
      have hsame := hspecial v w (hab.1 v rfl) hw hfinite
      simp [nonFinite, hsame, hfinite]
  refine List.Forall₂.mp (fun a b hab hdown => ?_) hrows (forall₂_of_countP_eq hup hcount)
  obtain ⟨rfl, rfl⟩ | ⟨v, w, rfl, rfl, hw⟩ := castSlot_ok.mp hab.2
  · trivial
  · cases hfinite : (denote source v).isFinite with
    | false => exact .inl (hspecial v w (hab.1 v rfl) hw hfinite)
    | true =>
      have hround : (denote target w).isFinite = true := by
        by_contra hnot
        have hnew := hdown (by simpa [nonFinite] using hnot)
        simp [nonFinite, hfinite] at hnew
      exact .inr ⟨hsource, htarget, hfinite, hround, hw⟩

theorem returned_kept (hlaws : Truncates lib source target)
    (hcomparable : comparable source target = true) (hvalid : ∀ v, some v ∈ rows → source.Holds v)
    (hcasts : List.Forall₂ (fun a b => castSlot lib source target a = .ok b) rows casts)
    (hback : List.Forall₂ (fun b a => castSlot lib target source b = .ok a) casts rows) :
    List.Forall₂ (SameSlot lib source target) rows casts := by
  have hrows : List.Forall₂ (fun a b => (∀ v, a = some v → source.Holds v) ∧
      castSlot lib source target a = .ok b) rows casts :=
    (forall₂_and_left rows casts).mpr ⟨fun a ha v hv => hvalid v (hv ▸ ha), hcasts⟩
  refine List.Forall₂.mp (fun a b hab hba => ?_) hrows hback.flip
  obtain ⟨rfl, rfl⟩ | ⟨v, w, rfl, rfl, hw⟩ := castSlot_ok.mp hab.2
  · trivial
  · have hreturn : lib.cast target source w = .ok v := by
      obtain ⟨h, -⟩ | ⟨w', v', hw', hv', hcast⟩ := castSlot_ok.mp hba
      · exact absurd h (Option.some_ne_none w)
      · rw [Option.some.injEq] at hw' hv'
        rw [hw', hv', hcast]
    exact .inl (hlaws.returns hcomparable v w v (hab.1 v rfl) hw hreturn).symm

/-- What `lossless_cast` gives is the array itself, or Arrow's cast of it that passed the checks. -/
theorem losslessCast_ok {cast : Leaf} {target : ArrowType}
    (h : losslessCast lib array target = .ok cast) :
    (array.type = target ∧ cast = array) ∨
      (castArray lib array target = .ok cast ∧
        (array.type.isFloating = true → target.isFloating = true →
          nonFiniteCount cast = nonFiniteCount array) ∧
        (array.type.isTextual = false → array.type.isDictionary = false →
          target.isTextual = false → ¬ (array.type.isFloating = true ∧ target.isFloating = true) →
          castArray lib cast array.type = .ok array)) := by
  rw [losslessCast] at h
  split_ifs at h with htype
  · exact .inl ⟨htype, (Except.ok.inj h).symm⟩
  · refine .inr ?_
    cases hcast : castArray lib array target with
    | error message =>
      rw [hcast] at h
      exact absurd h (by simp)
    | ok made =>
      rw [hcast] at h
      dsimp only at h
      split_ifs at h with hnulls hfloat hcount hexempt
      · obtain rfl := Except.ok.inj h
        rw [Bool.and_eq_true] at hfloat
        exact ⟨rfl, fun _ _ => not_not.mp hcount, fun _ _ _ hnot => absurd hfloat hnot⟩
      · obtain rfl := Except.ok.inj h
        rw [Bool.and_eq_true] at hfloat
        refine ⟨rfl, fun hs ht => absurd ⟨hs, ht⟩ hfloat, fun htext hdict htarget _ => ?_⟩
        simp [htext, hdict, htarget] at hexempt
      · rw [Bool.and_eq_true] at hfloat
        cases hback : castArray lib made array.type with
        | error message =>
          rw [hback] at h
          exact absurd h (by simp)
        | ok back =>
          rw [hback] at h
          dsimp only at h
          split_ifs at h with hsame
          obtain rfl := Except.ok.inj h
          exact ⟨rfl, fun hs ht => absurd ⟨hs, ht⟩ hfloat, fun _ _ _ _ => by rw [hback, hsame]⟩

theorem isFloating_logical {type : ArrowType} (h : type.isFloating = true) :
    type.logical.isFloat = true := by
  cases type with
  | plain type => exact h
  | dictionary key value => exact absurd h Bool.false_ne_true

theorem isTextual_logical {type : ArrowType} (h : type.logical.isText = false) :
    type.isTextual = false := by
  cases type with
  | plain type => exact h
  | dictionary key value => rfl

/-- An accepted cast keeps every value exactly if the source is plain and comparable with the
target, or each value fits the target. -/
theorem losslessCast_kept_iff {array cast : Leaf} {target : ArrowType} (hvalid : array.Valid)
    (hsource : array.type.logical.isText = false) (htarget : target.logical.isText = false)
    (hlaws : Truncates lib array.type.logical target.logical)
    (hcast : losslessCast lib array target = .ok cast) :
    Kept lib array cast ↔
      (array.type.isDictionary = false ∧
        comparable array.type.logical target.logical = true) ∨
      ∀ v, some v ∈ array.logical → Fits array.type.logical target.logical v := by
  have hholds : ∀ v, some v ∈ array.logical → array.type.logical.Holds v := fun v => hvalid.holds
  obtain ⟨htype, rfl⟩ | ⟨hmade, hcount, hback⟩ := losslessCast_ok hcast
  · have hkept : Kept lib cast cast := by
      rw [Kept, forall₂_same]
      intro slot _
      cases slot with
      | none => trivial
      | some v => exact .inl rfl
    refine iff_of_true hkept (.inr fun v hv => .inl ⟨v, ?_, ?_⟩)
    · exact htype ▸ hholds v hv
    · rw [← htype]
  · obtain ⟨hcastType, hrows⟩ := castArray_logical hmade
    have hfits := rows_kept_iff hlaws hholds hrows
    rw [Kept, hcastType]
    by_cases hguarded : array.type.isDictionary = false ∧
        comparable array.type.logical target.logical = true
    · refine iff_of_true ?_ (.inl hguarded)
      obtain ⟨hdict, hcomparable⟩ := hguarded
      by_cases hfloating : array.type.isFloating = true ∧ target.isFloating = true
      · obtain ⟨hs, ht⟩ := hfloating
        have hcounts := hcount hs ht
        rw [nonFiniteCount, nonFiniteCount, hcastType] at hcounts
        exact floats_kept hlaws (isFloating_logical hs) (isFloating_logical ht) hholds hrows hcounts
      · have hreturned := hback (isTextual_logical hsource) hdict (isTextual_logical htarget)
          hfloating
        have hreturnRows := (castArray_logical hreturned).2
        rw [hcastType] at hreturnRows
        exact returned_kept hlaws hcomparable hholds hrows hreturnRows
    · rw [hfits, or_iff_right hguarded]

end

/-- Arrow's strict cast of doubles to 64-bit integers, and back for those a double holds. -/
def truncateDouble : Plain → Plain → Raw → Except Text Raw
  | .float .double, .int true 64, .float .negZero => .ok (.int 0)
  | .float .double, .int true 64, .float (.fin x) =>
    let n := x.num.tdiv x.den
    if -2 ^ 63 ≤ n ∧ n < 2 ^ 63 then .ok (.int n) else .error "out of range".toList
  | .int true 64, .float .double, .int n =>
    if |n| < 2 ^ 53 then .ok (.float (.fin n)) else .error "not exact".toList
  | _, _, _ => .error "unsupported".toList

theorem taken_range (slots : List (Option Raw)) :
    ((List.range slots.length).map some).map (taken slots) = slots := by
  apply ext_getElem
  · simp
  · intro i _ hi
    simp [taken, hi]

theorem truncateDouble_holds (source target : Plain) (v w : Raw)
    (h : truncateDouble source target v = .ok w) : target.Holds w := by
  rw [truncateDouble.eq_def] at h
  split at h
  · obtain rfl := Except.ok.inj h
    exact ⟨by decide, by decide⟩
  · dsimp only at h
    split_ifs at h with hrange
    obtain rfl := Except.ok.inj h
    exact hrange
  · split_ifs at h with hrange
    obtain rfl := Except.ok.inj h
    exact ⟨_, 0, hrange, by decide, by decide, by simp⟩
  · exact absurd h (by simp)

/-- Doubles and longs, and dictionaries that keep every slot. -/
def doubles : Casts where
  cast := truncateDouble
  cast_holds := truncateDouble_holds
  pack _ slots := .ok ((List.range slots.length).map some, slots)
  pack_taken key slots keys values h := by
    rw [Except.ok.injEq, Prod.mk.injEq] at h
    obtain ⟨rfl, rfl⟩ := h
    exact taken_range slots
  rekey _ _ := .ok ()

theorem doubles_truncates : Truncates doubles (.float .double) (.int true 64) where
  exact v u hv hu hsame := by
    cases u with
    | int m =>
      cases v with
      | float x =>
        cases x with
        | fin q =>
          obtain rfl : (m : ℚ) = q := by simpa [denote, denoteFloat] using hsame
          refine ⟨.int m, ?_, rfl⟩
          have hwhole : ((m : ℚ).num.tdiv (m : ℚ).den) = m := by simp
          change (if _ then _ else _) = _
          rw [hwhole]
          exact if_pos hu
        | negZero => exact ⟨.int 0, rfl, by simp [denote, denoteFloat]⟩
        | nan | negInf | posInf => exact absurd hsame (by simp [denote, denoteFloat])
      | bool | int | text | bytes => exact hv.elim
    | bool | float | text | bytes => exact hu.elim
  returns _ v w back hv h hback := by
    cases w with
    | int n =>
      change (if _ then _ else _) = _ at hback
      split_ifs at hback
      obtain rfl := Except.ok.inj hback
      rfl
    | bool | float | text | bytes => exact absurd hback (by simp [doubles, truncateDouble])
  rounds _ htarget := absurd htarget (by decide)

/-- One dictionary-encoded double. -/
def encoded (x : ℚ) : Leaf :=
  .dictionary "Int32".toList (.float .double) [some 0] [some (.float (.fin x))]

theorem encoded_valid {x : ℚ} (hx : FloatFormat.double.Holds x) : (encoded x).Valid := by
  intro v hv
  rw [mem_singleton, Option.some.injEq] at hv
  rw [hv]
  exact hx

theorem losslessCast_kept_iff_two :
    Kept doubles (encoded 2) (.plain (.int true 64) [some (.int 2)]) ↔
      ((encoded 2).type.isDictionary = false ∧
        comparable (encoded 2).type.logical (.int true 64) = true) ∨
      ∀ v, some v ∈ (encoded 2).logical → Fits (.float .double) (.int true 64) v :=
  @losslessCast_kept_iff doubles (encoded 2) (.plain (.int true 64) [some (.int 2)])
    (.plain (.int true 64)) (encoded_valid ⟨2, 0, by decide, by decide, by decide, by norm_num⟩)
    rfl rfl doubles_truncates (by decide)

def threeHalves : ℚ := { num := 3, den := 2 }

/-- A dictionary of 1.5 is cast to 1. -/
theorem dictionary_truncated :
    ¬ ∀ (lib : Casts) (array cast : Leaf) (target : ArrowType), array.Valid →
      array.type.logical.isText = false → target.logical.isText = false →
      Truncates lib array.type.logical target.logical →
      losslessCast lib array target = .ok cast → Kept lib array cast := by
  intro h
  have hhalves : threeHalves = 3 * 2 ^ (-1 : ℤ) := by
    have hdiv := Rat.num_div_den threeHalves
    change ((3 : ℤ) : ℚ) / ((2 : ℕ) : ℚ) = threeHalves at hdiv
    rw [← hdiv]
    norm_num
  have hkept := h doubles (encoded threeHalves) (.plain (.int true 64) [some (.int 1)])
    (.plain (.int true 64))
    (encoded_valid ⟨3, -1, by decide, by decide, by decide, by rw [hhalves]; norm_num⟩)
    rfl rfl doubles_truncates (by decide)
  obtain hsame | ⟨-, hfloat, -⟩ := (forall₂_cons.mp hkept).1
  · change Denoted.number ((1 : ℤ) : ℚ) = Denoted.number threeHalves at hsame
    rw [Denoted.number.injEq, hhalves] at hsame
    norm_num at hsame
  · exact absurd hfloat (by decide)

end DeltaSwamp.Arrow
