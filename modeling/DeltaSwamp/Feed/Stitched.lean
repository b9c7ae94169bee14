import DeltaSwamp.Dict
import DeltaSwamp.Feed.Follow
import DeltaSwamp.Result
import Mathlib.Data.List.Chain

/-!
# A feed over several schemas

`_stitched_cdf`: a range read segment by segment, each under its own schema, and
refused where a column is lost between two of them. `_feed_segments` cuts the
range where the schema really changes; over a long range it may leave out a
change that is undone later in it.
-/

namespace DeltaSwamp.Feed

open List

/-- A version's top-level columns: each name with its type's text. -/
abbrev Columns := List (String × String)

/-- `dict(fields)`. -/
def columnTypes (columns : Columns) : Dict String String := Dict.update [] columns

/-- The columns of a version that are missing or of another type in a later one. -/
def lostColumns (earlier later : Columns) : List String :=
  ((columnTypes earlier).filter fun c => (columnTypes later).get c.1 ≠ some c.2).map Prod.fst

/-- What stops the reading of several segments. -/
inductive Unstitched (ε : Type) where
  /-- `ChangeFeedSchemaChangeError`: at this version, these columns are lost. -/
  | schemaChange (version : Nat) (lost : List String)
  /-- What the read of one range raises. -/
  | raised (error : ε)
  deriving DecidableEq

section
variable {ε τ : Type} (schemaAt : Nat → Columns)

/-- The first version whose segment lost columns of the version before it. -/
def firstLoss : List (Nat × Nat) → Option (Nat × List String)
  | [] => none
  | (low, _) :: segments =>
    let lost := lostColumns (schemaAt (low - 1)) (schemaAt low)
    if lost ≠ [] then some (low, lost) else firstLoss segments

/-- `_stitched_cdf`, `cdfRead` the read of one range: the parts it puts together, in order. -/
def stitchedCdf (cdfRead : Nat → Nat → Except ε τ) (segments : List (Nat × Nat)) :
    Except (Unstitched ε) (List τ) :=
  match firstLoss schemaAt segments.tail with
  | some (version, lost) => .error (.schemaChange version lost)
  | none => segments.mapM fun seg =>
    match cdfRead seg.1 seg.2 with
    | .ok part => .ok part
    | .error error => .error (.raised error)

end

/-- The versions of a segment. -/
def versionsOf (segment : Nat × Nat) : List Nat :=
  List.range' segment.1 (segment.2 + 1 - segment.1)

section
variable {σ : Type} (s : Nat → σ)

/-- Consecutive segments from `low` to `high`, each with one schema at both ends, cut where the
schema changes. -/
inductive Cuts (high : Nat) : Nat → List (Nat × Nat) → Prop where
  | last {low : Nat} (h : low ≤ high) (hends : s low = s high) : Cuts high low [(low, high)]
  | more {low mid : Nat} {segments : List (Nat × Nat)} (h : low ≤ mid) (hends : s low = s mid)
      (hchange : s (mid + 1) ≠ s mid) (hrest : Cuts high (mid + 1) segments) :
      Cuts high low ((low, mid) :: segments)

/-- All versions of a segment have one schema. -/
def OneSchema (segment : Nat × Nat) : Prop :=
  ∀ v, segment.1 ≤ v → v ≤ segment.2 → s v = s segment.1

/-- No schema that the range has left comes back in it. -/
def NeverUndone (start high : Nat) : Prop :=
  ∀ i j k, start ≤ i → i ≤ j → j ≤ k → k ≤ high → s i = s k → s j = s i

variable {s} {high low : Nat} {segments : List (Nat × Nat)}

theorem Cuts.covers (h : Cuts s high low segments) : Covers high low segments := by
  induction h with
  | last h _ => exact .last h
  | more h _ _ _ ih => exact .more h ih

theorem Cuts.bounds (h : Cuts s high low segments) :
    ∀ seg ∈ segments, low ≤ seg.1 ∧ seg.1 ≤ seg.2 ∧ seg.2 ≤ high ∧ s seg.1 = s seg.2 := by
  induction h with
  | last h hends =>
    intro seg hseg
    rw [mem_singleton] at hseg
    subst hseg
    exact ⟨le_refl _, h, le_refl _, hends⟩
  | more h hends _ hrest ih =>
    intro seg hseg
    obtain rfl | hseg := mem_cons.mp hseg
    · have hle := hrest.covers.le
      exact ⟨le_refl _, h, by omega, hends⟩
    · obtain ⟨hlow, hle, hhigh, hsame⟩ := ih seg hseg
      exact ⟨by omega, hle, hhigh, hsame⟩

theorem Cuts.oneSchema (h : Cuts s high low segments) (hkept : NeverUndone s low high) :
    ∀ seg ∈ segments, OneSchema s seg := by
  intro seg hseg v hlow hhigh
  obtain ⟨hstart, -, hend, hsame⟩ := h.bounds seg hseg
  exact hkept seg.1 v seg.2 hstart hlow hhigh hend hsame

theorem Cuts.chain (h : Cuts s high low segments) :
    segments.IsChain fun a b => b.1 = a.2 + 1 ∧ s b.1 ≠ s a.2 := by
  induction h with
  | last => exact isChain_singleton _
  | more h hends hchange hrest ih =>
    apply ih.cons
    intro next hnext
    cases hrest with
    | last => cases hnext; exact ⟨rfl, hchange⟩
    | more => cases hnext; exact ⟨rfl, hchange⟩

theorem Cuts.versions (h : Cuts s high low segments) :
    segments.flatMap versionsOf = List.range' low (high + 1 - low) := by
  induction h with
  | last => simp [versionsOf]
  | @more low mid segments h hends hchange hrest ih =>
    have hle := hrest.covers.le
    have hsplit : high + 1 - low = (mid + 1 - low) + (high + 1 - (mid + 1)) := by omega
    have hnext : low + (mid + 1 - low) = mid + 1 := by omega
    rw [flatMap_cons, ih, hsplit, ← List.range'_append_1, hnext, versionsOf]

end

section
variable {σ : Type} [DecidableEq σ] {s : Nat → σ} {high : Nat}

/-- The walk cuts wherever the schema changes. -/
theorem walk_cuts (n : Nat) {low next : Nat} {current : σ} (hlow : low < next)
    (hend : next + n = high + 1) (hcurrent : ∀ v, low ≤ v → v < next → s v = current) :
    ∃ segments, walk (fun v => some (s v)) high (s high) low current (List.range' next n) =
        some segments ∧ Cuts s high low segments ∧ ∀ seg ∈ segments, OneSchema s seg := by
  induction n generalizing low next current with
  | zero =>
    apply Exists.intro [(low, high)]
    apply And.intro rfl
    constructor
    · apply Cuts.last (by omega)
      rw [hcurrent low (le_refl _) hlow, hcurrent high (by omega) (by omega)]
    · intro seg hseg
      rw [mem_singleton] at hseg
      subst hseg
      intro v hv hv'
      rw [hcurrent v hv (by simp only at hv'; omega), hcurrent low (le_refl _) hlow]
  | succ n ih =>
    have hread : (if next = high then some (s high) else some (s next)) = some (s next) := by
      split_ifs with heq
      · rw [heq]
      · rfl
    rw [List.range'_succ, walk, hread, Option.bind_some]
    by_cases hchange : s next ≠ current
    · rw [if_pos hchange]
      have hhere : ∀ v, next ≤ v → v < next + 1 → s v = s next := by
        intro v hv hv'
        rw [show v = next by omega]
      obtain ⟨segments, hwalk, hcuts, hone⟩ := ih (Nat.lt_succ_self next) (by omega) hhere
      have hlast : next - 1 + 1 = next := by omega
      have hbefore : s (next - 1) = current := hcurrent (next - 1) (by omega) (by omega)
      rw [hwalk]
      apply Exists.intro _
      apply And.intro rfl
      constructor
      · apply Cuts.more (by omega)
        · rw [hbefore, hcurrent low (le_refl _) hlow]
        · rw [hlast, hbefore]
          exact hchange
        · rw [hlast]
          exact hcuts
      · intro seg hseg
        obtain rfl | hseg := mem_cons.mp hseg
        · intro v hv hv'
          simp only at hv hv'
          rw [hcurrent v hv (by omega), hcurrent low (le_refl _) hlow]
        · exact hone seg hseg
    · rw [if_neg hchange]
      push Not at hchange
      apply ih (by omega) (by omega)
      intro v hv hv'
      obtain rfl | hlt : v = next ∨ v < next := by omega
      · exact hchange
      · exact hcurrent v hv hlt

/-- The search ends right after a version that still has the schema, or where it began. -/
theorem search_change {current : σ} {lo hi : Nat} (hle : lo ≤ hi) (hdiffers : s hi ≠ current) :
    ∃ m, search (fun v => some (s v)) current lo hi hle = some m ∧ s m.1 ≠ current ∧
      (m.1 = lo ∨ s (m.1 - 1) = current) := by
  induction hn : hi - lo using Nat.strong_induction_on generalizing lo hi with
  | _ n ih =>
    rw [search]
    split_ifs with hlt
    · simp only [Option.bind_some]
      split_ifs with hsame
      · obtain ⟨m, hm, hne, hwhere⟩ :=
          ih (hi - ((lo + hi) / 2 + 1)) (by omega) (by omega) hdiffers rfl
        rw [hm]
        apply Exists.intro _
        apply And.intro rfl
        apply And.intro hne
        right
        obtain heq | hbefore := hwhere
        · rw [heq, Nat.add_sub_cancel]
          exact hsame
        · exact hbefore
      · obtain ⟨m, hm, hne, hwhere⟩ := ih ((lo + hi) / 2 - lo) (by omega) (by omega) hsame rfl
        rw [hm]
        exact ⟨_, rfl, hne, hwhere⟩
    · have heq : lo = hi := by omega
      subst heq
      exact ⟨_, rfl, hdiffers, .inl rfl⟩

theorem bisect_cuts {low : Nat} (hle : low ≤ high) :
    ∃ segments, bisect (fun v => some (s v)) high low (s low) hle = some segments ∧
      Cuts s high low segments := by
  induction hn : high - low using Nat.strong_induction_on generalizing low with
  | _ n ih =>
    rw [bisect, Option.bind_some]
    split_ifs with hsame hlt
    · exact ⟨_, rfl, .last hle hsame.symm⟩
    · obtain ⟨m, hm, hne, hwhere⟩ := @search_change _ _ s (s low) _ _ hlt hsame
      rw [hm, Option.bind_some, Option.bind_some]
      have hlow := m.2.1
      obtain ⟨segments, hbisect, hcuts⟩ := ih (high - m.1) (by omega) m.2.2 rfl
      have hlast : m.1 - 1 + 1 = m.1 := by omega
      have hbefore : s (m.1 - 1) = s low := by
        obtain heq | hbefore := hwhere
        · rw [heq, Nat.succ_sub_one]
        · exact hbefore
      rw [hbisect]
      apply Exists.intro _
      apply And.intro rfl
      apply Cuts.more (by omega) hbefore.symm
      · rw [hlast, hbefore]
        exact hne
      · rw [hlast]
        exact hcuts
    · have heq : low = high := by omega
      subst heq
      exact absurd rfl hsame

theorem feedSegments_cuts {start : Nat} (hlt : start < high) :
    ∃ segments, feedSegments (fun v => some (s v)) true start high = some segments ∧
      Cuts s high start segments ∧
      (high - start ≤ feedSchemaWalk ∨ NeverUndone s start high →
        ∀ seg ∈ segments, OneSchema s seg) := by
  unfold feedSegments
  rw [if_pos rfl, Option.bind_some, dif_pos hlt, Option.bind_some]
  split_ifs with hshort hsame
  · have hhere : ∀ v, start ≤ v → v < start + 1 → s v = s start := by
      intro v hv hv'
      rw [show v = start by omega]
    have hend : start + 1 + (high - start) = high + 1 := by omega
    obtain ⟨segments, hwalk, hcuts, hone⟩ :=
      walk_cuts (high - start) (Nat.lt_succ_self start) hend hhere
    exact ⟨segments, hwalk, hcuts, fun _ => hone⟩
  · have hcuts : Cuts s high start [(start, high)] := .last hlt.le hsame
    exact ⟨_, rfl, hcuts, fun hkept => hcuts.oneSchema (hkept.resolve_left hshort)⟩
  · obtain ⟨segments, hbisect, hcuts⟩ := bisect_cuts (s := s) hlt.le
    exact ⟨segments, hbisect, hcuts, fun hkept => hcuts.oneSchema (hkept.resolve_left hshort)⟩

end

section
variable {ε τ : Type} {s : Nat → Columns} {high low : Nat} {segments : List (Nat × Nat)}

/-- Every column of a version is in a later one, with the same type. -/
def Keeps (earlier later : Columns) : Prop :=
  ∀ name type, (columnTypes earlier).get name = some type →
    (columnTypes later).get name = some type

theorem Keeps.trans {a b c : Columns} (h : Keeps a b) (h' : Keeps b c) : Keeps a c :=
  fun name type hget => h' name type (h name type hget)

theorem lostColumns_eq_nil {earlier later : Columns} :
    lostColumns earlier later = [] ↔ Keeps earlier later := by
  have hnodup : ((columnTypes earlier).map Prod.fst).Nodup :=
    Dict.nodup_update (by simp) _
  rw [lostColumns, map_eq_nil_iff, filter_eq_nil_iff]
  constructor
  · intro h name type hget
    simpa using h (name, type) (Dict.mem_of_get hget)
  · rintro h ⟨name, type⟩ hmem
    simpa using h name type (Dict.get_of_mem hnodup hmem)

theorem firstLoss_eq_none : firstLoss s segments = none ↔
    ∀ seg ∈ segments, Keeps (s (seg.1 - 1)) (s seg.1) := by
  induction segments with
  | nil => simp [firstLoss]
  | cons seg segments ih =>
    rw [forall_mem_cons, ← ih, ← lostColumns_eq_nil]
    by_cases hlost : lostColumns (s (seg.1 - 1)) (s seg.1) = []
    · simp [firstLoss, hlost]
    · simp [firstLoss, hlost]

theorem firstLoss_eq_some {version : Nat} {lost : List String}
    (h : firstLoss s segments = some (version, lost)) :
    lost = lostColumns (s (version - 1)) (s version) ∧ lost ≠ [] := by
  induction segments with
  | nil => cases h
  | cons seg segments ih =>
    simp only [firstLoss] at h
    split_ifs at h with hlost
    · cases h
      exact ⟨rfl, hlost⟩
    · exact ih h

/-- Nothing is lost from one segment to the next exactly when nothing is lost between any two. -/
theorem Cuts.keeps_iff (h : Cuts s high low segments) :
    firstLoss s segments.tail = none ↔ segments.Pairwise fun a b => Keeps (s a.1) (s b.1) := by
  rw [firstLoss_eq_none]
  induction h with
  | last => simp
  | @more low mid segments hle hends hchange hrest ih =>
    obtain ⟨next, rest, rfl⟩ : ∃ next rest, segments = next :: rest := by
      cases hrest with
      | last => exact ⟨_, _, rfl⟩
      | more => exact ⟨_, _, rfl⟩
    have hnext : next.1 = mid + 1 := by
      cases hrest with
      | last => rfl
      | more => rfl
    rw [tail_cons, forall_mem_cons, pairwise_cons, ← ih, tail_cons,
      forall_mem_cons, hnext, Nat.add_sub_cancel, ← hends]
    constructor
    · rintro ⟨hkeeps, hall⟩
      have hpairs := pairwise_cons.mp (ih.mp hall)
      rw [hnext] at hpairs
      exact ⟨⟨hkeeps, fun b hb => hkeeps.trans (hpairs.1 b hb)⟩, hall⟩
    · rintro ⟨⟨hkeeps, -⟩, hall⟩
      exact ⟨hkeeps, hall⟩

theorem stitchedCdf_ok {cdfRead : Nat → Nat → Except ε τ} {parts : List τ}
    (h : stitchedCdf s cdfRead segments = .ok parts) :
    firstLoss s segments.tail = none ∧
      segments.Forall₂ (fun seg part => cdfRead seg.1 seg.2 = .ok part) parts := by
  unfold stitchedCdf at h
  split at h
  · cases h
  · rename_i hkept
    apply And.intro hkept
    apply (Result.forall₂_of_mapM_ok h).imp
    intro seg part hpart
    split at hpart
    · rename_i hread
      cases hpart
      exact hread
    · cases hpart

theorem stitchedCdf_loss {cdfRead : Nat → Nat → Except ε τ} {loss : Nat × List String}
    (h : firstLoss s segments.tail = some loss) :
    stitchedCdf s cdfRead segments = .error (.schemaChange loss.1 loss.2) := by
  rw [stitchedCdf, h]

/-- A range is cut into consecutive segments at changes of the schema, and read version by version
or refused where a column is lost. The segments have one schema each where the range is short or
no schema it has left comes back. -/
theorem feed_stitched (s : Nat → Columns) {start high : Nat} (hlt : start < high)
    (cdfRead : Nat → Nat → Except ε τ) :
    ∃ segments, feedSegments (fun v => some (s v)) true start high = some segments ∧
      segments.flatMap versionsOf = List.range' start (high + 1 - start) ∧
      (∀ seg ∈ segments, seg.1 ≤ seg.2 ∧ s seg.1 = s seg.2) ∧
      segments.IsChain (fun a b => b.1 = a.2 + 1 ∧ s b.1 ≠ s a.2) ∧
      (high - start ≤ feedSchemaWalk ∨ NeverUndone s start high →
        ∀ seg ∈ segments, OneSchema s seg) ∧
      (∀ parts, stitchedCdf s cdfRead segments = .ok parts →
        segments.Forall₂ (fun seg part => cdfRead seg.1 seg.2 = .ok part) parts) ∧
      (¬ segments.Pairwise (fun a b => Keeps (s a.1) (s b.1)) →
        ∃ version, stitchedCdf s cdfRead segments =
          .error (.schemaChange version (lostColumns (s (version - 1)) (s version)))) := by
  obtain ⟨segments, hsegments, hcuts, hone⟩ := feedSegments_cuts (s := s) hlt
  apply Exists.intro segments
  apply And.intro hsegments
  apply And.intro hcuts.versions
  constructor
  · intro seg hseg
    obtain ⟨-, hle, -, hsame⟩ := hcuts.bounds seg hseg
    exact ⟨hle, hsame⟩
  · apply And.intro hcuts.chain
    apply And.intro hone
    constructor
    · intro parts hparts
      exact (stitchedCdf_ok hparts).2
    · intro hlost
      rw [← hcuts.keeps_iff] at hlost
      obtain ⟨loss, hloss⟩ := Option.ne_none_iff_exists'.mp hlost
      obtain ⟨hcolumns, -⟩ := firstLoss_eq_some hloss
      apply Exists.intro loss.1
      rw [stitchedCdf_loss hloss, hcolumns]

end

/-- A column added at one version and taken out again at another. -/
def undone (added removed v : Nat) : Columns :=
  if added ≤ v ∧ v < removed then [("id", "long"), ("n", "long")] else [("id", "long")]

theorem feed_stitched_undone : ∃ segments,
    feedSegments (fun v => some (undone 1 3 v)) true 0 4 = some segments ∧
      segments.flatMap versionsOf = [0, 1, 2, 3, 4] ∧
      ∀ seg ∈ segments, OneSchema (undone 1 3) seg := by
  obtain ⟨segments, hsegments, hversions, -, -, hone, -⟩ :=
    feed_stitched (undone 1 3) (show 0 < 4 by decide)
      fun low high => (.ok (low, high) : Except Unit (Nat × Nat))
  exact ⟨segments, hsegments, hversions, hone (.inl (by decide))⟩

/-- A change undone in a range too long to be walked is left inside a segment. -/
theorem undone_change_uncut :
    ¬ ∀ (s : Nat → Columns) (start high : Nat) (segments : List (Nat × Nat)), start < high →
      feedSegments (fun v => some (s v)) true start high = some segments →
        ∀ seg ∈ segments, OneSchema s seg := by
  intro hclaim
  have hsegments : feedSegments (fun v => some (undone 1 3 v)) true 0 300 = some [(0, 300)] := by
    simp [feedSegments, feedSchemaWalk, undone]
  have hone := hclaim (undone 1 3) 0 300 [(0, 300)] (by decide) hsegments (0, 300)
    mem_cons_self
  exact absurd (hone 1 (by decide) (by decide)) (by decide)

end DeltaSwamp.Feed
