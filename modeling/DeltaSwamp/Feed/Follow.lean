import DeltaSwamp.Feed.Batches

/-!
# Following the change feed

`Table.changes`, poll by poll beside other writers: which versions it yields,
and what it has yielded when it stops.

`_feed_segments`: version by version over a short range, by bisection over a
long one. `schemaAt` is none where the schema of a version cannot be read.
-/

namespace DeltaSwamp.Feed

open List

/-- `_FEED_SCHEMA_WALK`. -/
def feedSchemaWalk : Nat := 200

section
variable {σ : Type} [DecidableEq σ] (schemaAt : Nat → Option σ)

/-- The versions of a short range compared one by one. -/
def walk (high : Nat) (last : σ) (low : Nat) (current : σ) :
    List Nat → Option (List (Nat × Nat))
  | [] => some [(low, high)]
  | version :: versions =>
    (if version = high then some last else schemaAt version).bind fun here =>
      if here ≠ current then
        (walk high last version here versions).map fun segments => (low, version - 1) :: segments
      else walk high last low current versions

/-- The first version found past `low` whose schema differs. -/
def search (current : σ) (lo hi : Nat) (hle : lo ≤ hi) : Option {m : Nat // lo ≤ m ∧ m ≤ hi} :=
  if hlt : lo < hi then
    let mid := (lo + hi) / 2
    (schemaAt mid).bind fun here =>
      if here = current then
        (search current (mid + 1) hi (by omega)).map fun m => ⟨m.1, by have := m.2; omega⟩
      else (search current lo mid (by omega)).map fun m => ⟨m.1, by have := m.2; omega⟩
  else some ⟨lo, le_refl lo, hle⟩
termination_by hi - lo

/-- A long range, cut at one change after another. -/
def bisect (high : Nat) (low : Nat) (current : σ) (_h : low ≤ high) : Option (List (Nat × Nat)) :=
  (schemaAt high).bind fun top =>
    if top = current then some [(low, high)]
    else if hlt : low < high then
      (search schemaAt current (low + 1) high hlt).bind fun m =>
        (schemaAt m.1).bind fun here =>
          (bisect high m.1 here m.2.2).map fun segments => (low, m.1 - 1) :: segments
    else
      -- Only where the schema of `high` was read twice and differed.
      none
termination_by high - low
decreasing_by
  have := m.2.1
  omega

/-- `_feed_segments`; `reader` says whether there is an engine to read schemas with. -/
def feedSegments (reader : Bool) (start high : Nat) : Option (List (Nat × Nat)) :=
  if reader then
    (schemaAt high).bind fun last =>
      if hlt : start < high then
        (schemaAt start).bind fun first =>
          if high - start ≤ feedSchemaWalk then
            walk schemaAt high last start first (List.range' (start + 1) (high - start))
          else if first = last then some [(start, high)]
          else bisect schemaAt high start first hlt.le
      else none
  else none

end

/-- Consecutive ranges from `low` to `high`. -/
inductive Covers (high : Nat) : Nat → List (Nat × Nat) → Prop where
  | last {low : Nat} (h : low ≤ high) : Covers high low [(low, high)]
  | more {low mid : Nat} {segments : List (Nat × Nat)} (h : low ≤ mid)
      (hrest : Covers high (mid + 1) segments) : Covers high low ((low, mid) :: segments)

theorem Covers.le {high low : Nat} {segments : List (Nat × Nat)} (h : Covers high low segments) :
    low ≤ high := by
  induction h with
  | last h => exact h
  | more h _ ih => omega

section
variable {σ : Type} [DecidableEq σ] {schemaAt : Nat → Option σ} {segments : List (Nat × Nat)}

theorem walk_covers {high : Nat} {last : σ} (n : Nat) :
    ∀ {low from' : Nat} {current : σ} {segments : List (Nat × Nat)}, low < from' →
      from' + n = high + 1 →
      walk schemaAt high last low current (List.range' from' n) = some segments →
      Covers high low segments := by
  induction n with
  | zero =>
    intro low from' current segments hlow hend h
    cases h
    exact .last (by omega)
  | succ n ih =>
    intro low from' current segments hlow hend h
    rw [List.range'_succ, walk] at h
    obtain ⟨here, -, h⟩ := Option.bind_eq_some_iff.mp h
    split_ifs at h with hchanged
    · obtain ⟨rest, hrest, rfl⟩ := Option.map_eq_some_iff.mp h
      have hcovers := ih (Nat.lt_succ_self from') (by omega) hrest
      refine .more (by omega) ?_
      have hnext : from' - 1 + 1 = from' := by omega
      rw [hnext]
      exact hcovers
    · have hlow' : low < from' + 1 := by omega
      exact ih hlow' (by omega) h

theorem bisect_covers {high low : Nat} {current : σ} (hle : low ≤ high)
    (h : bisect schemaAt high low current hle = some segments) : Covers high low segments := by
  induction hn : high - low using Nat.strong_induction_on generalizing low current segments with
  | _ n ih =>
    rw [bisect] at h
    obtain ⟨top, -, h⟩ := Option.bind_eq_some_iff.mp h
    split_ifs at h with hsame hlt
    · cases h
      exact .last hle
    · obtain ⟨m, -, h⟩ := Option.bind_eq_some_iff.mp h
      obtain ⟨here, -, h⟩ := Option.bind_eq_some_iff.mp h
      obtain ⟨rest, hrest, rfl⟩ := Option.map_eq_some_iff.mp h
      have hm := m.2
      have hcovers := ih (high - m.1) (by omega) hm.2 hrest rfl
      refine .more (by omega) ?_
      have hnext : m.1 - 1 + 1 = m.1 := by omega
      rw [hnext]
      exact hcovers

theorem feedSegments_covers {reader : Bool} {start high : Nat}
    (h : feedSegments schemaAt reader start high = some segments) : Covers high start segments := by
  unfold feedSegments at h
  split_ifs at h with _ hlt hshort
  · obtain ⟨last, -, h⟩ := Option.bind_eq_some_iff.mp h
    obtain ⟨first, -, h⟩ := Option.bind_eq_some_iff.mp h
    exact walk_covers (high - start) (Nat.lt_succ_self start) (by omega) h
  · obtain ⟨last, -, h⟩ := Option.bind_eq_some_iff.mp h
    obtain ⟨first, -, h⟩ := Option.bind_eq_some_iff.mp h
    split_ifs at h
    · cases h
      exact .last hlt.le
    · exact bisect_covers hlt.le h
  · obtain ⟨last, -, h⟩ := Option.bind_eq_some_iff.mp h
    cases h

end

/-- What a read of one range returns. -/
inductive Reading (δ : Type) where
  /-- The kernel's, commit by commit. -/
  | kernel (batches : List (List (Change δ))) (ending : Ending)
  /-- Another engine's, read whole. -/
  | whole (changes : List (Change δ))

/-- One turn of the polling loop: what the table, resolved anew, answers. -/
structure Poll (σ δ : Type) where
  latest : Option Nat
  reader : Bool
  schemaAt : Nat → Option σ
  feed : Nat → Nat → Reading δ

variable {σ δ ε : Type} [DecidableEq σ] (select : δ → ε)

/-- The versions of one range. -/
def readRange : Reading δ → List (Yield ε) × Stop
  | .kernel batches ending => streamByVersion select batches ending
  | .whole changes => (byVersion select changes, .finished)

/-- One range after another, until one fails. -/
def readRanges (feed : Nat → Nat → Reading δ) : List (Nat × Nat) → List (Yield ε) × Stop
  | [] => ([], .finished)
  | (low, high) :: ranges =>
    let r := readRange select (feed low high)
    if r.2 = .finished then
      let rest := readRanges feed ranges
      (r.1 ++ rest.1, rest.2)
    else r

/-- `_feed_segments(next_version, latest) or [(next_version, latest)]`. -/
def ranges (p : Poll σ δ) (next latest : Nat) : List (Nat × Nat) :=
  match feedSegments p.schemaAt p.reader next latest with
  | some (range :: more) => range :: more
  | _ => [(next, latest)]

/-- The polling loop: what is yielded in the polls given, from a version on. -/
def follow : List (Poll σ δ) → Nat → List (Yield ε) × Stop
  | [], _ => ([], .finished)
  | p :: polls, next =>
    match p.latest with
    | none => follow polls next
    | some latest =>
      if next ≤ latest then
        let r := readRanges select p.feed (ranges p next latest)
        if r.2 = .finished then
          let rest := follow polls (latest + 1)
          (r.1 ++ rest.1, rest.2)
        else r
      else follow polls next

/-- `changes`; `snapshot` is the table at the start, with `include_snapshot`. -/
def changes (polls : List (Poll σ δ)) (start : Nat) (snapshot : Option (List ε)) :
    List (Yield ε) × Stop :=
  match snapshot with
  | none => follow select polls start
  | some table =>
    let r := follow select polls (start + 1)
    ((start, table) :: r.1, r.2)

variable {select} {rows : Nat → Multiset δ}

/-- A read gives the change rows of its range. -/
inductive Reading.Gives (rows : Nat → Multiset δ) (low high : Nat) : Reading δ → Prop where
  | kernel {batches : List (List (Change δ))} {ending : Ending}
      (h : Feed.Gives rows low high batches ending) : Gives rows low high (.kernel batches ending)
  | whole {changes : List (Change δ)} (h : Holds rows low (high + 1) changes) :
      Gives rows low high (.whole changes)

/-- Every range of versions committed when the table was resolved can be read. -/
def Poll.Valid (rows : Nat → Multiset δ) (p : Poll σ δ) : Prop :=
  ∀ latest, p.latest = some latest → ∀ low high, low ≤ high → high ≤ latest →
    (p.feed low high).Gives rows low high

/-- Where a read of versions from `low` leaves off: after them all, or at a gap. -/
def LeavesAt (bound : Nat) (stop : Stop) (whole : Prop) : Prop :=
  (stop = .finished ∧ whole) ∨ stop = .gap bound

variable (select) in
theorem readRange_delivers {low high : Nat} {reading : Reading δ}
    (h : reading.Gives rows low high) (hle : low ≤ high) :
    ∃ bound, low ≤ bound ∧ bound ≤ high + 1 ∧
      Delivers select rows low bound (readRange select reading).1 ∧
      LeavesAt bound (readRange select reading).2 (bound = high + 1) := by
  cases h with
  | @kernel batches ending h =>
    obtain ⟨hdelivers, hstop⟩ := streamByVersion_delivers select h
    cases ending with
    | ended => exact ⟨high + 1, by omega, le_refl _, hdelivers, .inl ⟨hstop, rfl⟩⟩
    | gap version =>
      obtain ⟨hlow, hhigh⟩ := h.gap version rfl
      exact ⟨version, hlow, by omega, hdelivers, .inr hstop⟩
  | whole h => exact ⟨high + 1, by omega, le_refl _, byVersion_delivers select h, .inl ⟨rfl, rfl⟩⟩

variable (select) in
theorem readRanges_delivers {feed : Nat → Nat → Reading δ} {high low : Nat}
    {ranges : List (Nat × Nat)} (hcovers : Covers high low ranges)
    (hfeed : ∀ a b, a ≤ b → b ≤ high → (feed a b).Gives rows a b) :
    ∃ bound, low ≤ bound ∧ Delivers select rows low bound (readRanges select feed ranges).1 ∧
      LeavesAt bound (readRanges select feed ranges).2 (bound = high + 1) := by
  induction hcovers with
  | @last low hle =>
    obtain ⟨bound, hlow, -, hdelivers, hleaves⟩ :=
      readRange_delivers select (hfeed low high hle (le_refl _)) hle
    refine ⟨bound, hlow, ?_⟩
    rw [readRanges]
    split_ifs with hfinished
    · rw [hfinished] at hleaves
      simp only [readRanges, append_nil]
      exact ⟨hdelivers, hleaves⟩
    · exact ⟨hdelivers, hleaves⟩
  | @more low mid ranges hle hrest ih =>
    have hmid := hrest.le
    obtain ⟨bound, hlow, hbound, hdelivers, hleaves⟩ :=
      readRange_delivers select (hfeed low mid hle (by omega)) hle
    rw [readRanges]
    split_ifs with hfinished
    · obtain ⟨bound', hlow', hdelivers', hleaves'⟩ := ih
      rw [hfinished] at hleaves
      rcases hleaves with ⟨-, rfl⟩ | hgap
      · exact ⟨bound', by omega, hdelivers.append hlow hlow' hdelivers', hleaves'⟩
      · cases hgap
    · rcases hleaves with ⟨hstop, -⟩ | hgap
      · exact absurd hstop hfinished
      · exact ⟨bound, hlow, hdelivers, .inr hgap⟩

theorem ranges_cover (p : Poll σ δ) {next latest : Nat} (h : next ≤ latest) :
    Covers latest next (ranges p next latest) := by
  unfold ranges
  split
  · rename_i range more hsegments
    exact feedSegments_covers hsegments
  · exact .last h

variable (select) in
/-- A run of polls delivers every version before some bound, the gap where it stopped at one. -/
theorem follow_delivers {polls : List (Poll σ δ)} (hvalid : ∀ p ∈ polls, p.Valid rows)
    (next : Nat) : ∃ bound, next ≤ bound ∧
      Delivers select rows next bound (follow select polls next).1 ∧
      LeavesAt bound (follow select polls next).2 True := by
  induction polls generalizing next with
  | nil => exact ⟨next, le_refl _, .nil next, .inl ⟨rfl, trivial⟩⟩
  | cons p polls ih =>
    have hrest := fun n => ih (fun q hq => hvalid q (mem_cons_of_mem p hq)) n
    rw [follow]
    cases hlatest : p.latest with
    | none => exact hrest next
    | some latest =>
      by_cases hnew : next ≤ latest
      · simp only [if_pos hnew]
        obtain ⟨bound, hlow, hdelivers, hleaves⟩ :=
          readRanges_delivers select (ranges_cover p hnew)
            (hvalid p mem_cons_self latest hlatest)
        split_ifs with hfinished
        · obtain ⟨bound', hlow', hdelivers', hleaves'⟩ := hrest (latest + 1)
          rw [hfinished] at hleaves
          rcases hleaves with ⟨-, rfl⟩ | hgap
          · exact ⟨bound', by omega, hdelivers.append hlow hlow' hdelivers', hleaves'⟩
          · cases hgap
        · rcases hleaves with ⟨hstop, -⟩ | hgap
          · exact absurd hstop hfinished
          · exact ⟨bound, hlow, hdelivers, .inr hgap⟩
      · simp only [if_neg hnew]
        exact hrest next

/-- The yields follow the feed from a version: strictly on, each version with exactly its rows,
none passed over, and none before a gap left out. -/
structure Follows (select : δ → ε) (rows : Nat → Multiset δ) (start : Nat)
    (ys : List (Yield ε)) (stop : Stop) : Prop where
  increasing : (ys.map Prod.fst).Pairwise (· < ·)
  exact : ∀ y ∈ ys, start ≤ y.1 ∧ (y.2 : Multiset ε) = (rows y.1).map select
  notPassed : ∀ y ∈ ys, ∀ v, start ≤ v → v ≤ y.1 → rows v ≠ 0 → v ∈ ys.map Prod.fst
  beforeGap : ∀ g, stop = .gap g → (∀ y ∈ ys, y.1 < g) ∧
    ∀ v, start ≤ v → v < g → rows v ≠ 0 → v ∈ ys.map Prod.fst
  sound : ∀ v, stop ≠ .corrupt v

theorem Delivers.follows {start bound : Nat} {ys : List (Yield ε)} {stop : Stop}
    (h : Delivers select rows start bound ys) (hleaves : LeavesAt bound stop True) :
    Follows select rows start ys stop where
  increasing := h.increasing
  exact y hy := ⟨(h.exact y hy).1, (h.exact y hy).2.2.2⟩
  notPassed y hy v hv hle hrows := by
    have hbound := (h.exact y hy).2.1
    exact h.complete v hv (by omega) hrows
  beforeGap g hg := by
    rcases hleaves with ⟨hstop, -⟩ | hgap
    · rw [hg] at hstop
      cases hstop
    · rw [hg, Stop.gap.injEq] at hgap
      subst hgap
      exact ⟨fun y hy => (h.exact y hy).2.1, fun v hv hv' hrows => h.complete v hv hv' hrows⟩
  sound v hcorrupt := by
    rcases hleaves with ⟨hstop, -⟩ | hgap
    · rw [hcorrupt] at hstop
      cases hstop
    · rw [hcorrupt] at hgap
      cases hgap

/-- Following the feed loses, splits and repeats no version, whatever is committed between its
steps; and a consumer that stopped after any of the yields goes on from its last version, over
any later polls, as if it had not. -/
theorem changes_follow {polls : List (Poll σ δ)} (hvalid : ∀ p ∈ polls, p.Valid rows)
    (start : Nat) :
    Follows select rows start (changes select polls start none).1
      (changes select polls start none).2 ∧
    ∀ ys zs last, (changes select polls start none).1 = ys ++ zs → ys.getLast? = some last →
      ∀ later : List (Poll σ δ), (∀ p ∈ later, p.Valid rows) →
        Follows select rows start (ys ++ (changes select later (last.1 + 1) none).1)
          (changes select later (last.1 + 1) none).2 := by
  obtain ⟨bound, hlow, hdelivers, hleaves⟩ := follow_delivers select hvalid start
  refine ⟨hdelivers.follows hleaves, fun ys zs last hsplit hlast later hlater => ?_⟩
  rw [show (changes select polls start none).1 = (follow select polls start).1 from rfl] at hsplit
  rw [hsplit] at hdelivers
  have htaken := hdelivers.taken hlast
  obtain ⟨bound', hlow', hdelivers', hleaves'⟩ :=
    follow_delivers select hlater (last.1 + 1)
  have hstart : start ≤ last.1 + 1 := by
    have hmem : last ∈ ys := mem_of_getLast? hlast
    have := (htaken.exact last hmem).1
    omega
  exact (htaken.append hstart hlow' hdelivers').follows hleaves'

/-- One row a commit until the feed was turned off at version 4. -/
def offAtFour (latest : Option Nat) : Poll Nat Nat where
  latest := latest
  reader := true
  schemaAt _ := some 0
  feed low high :=
    .kernel [[], (List.range' low (min (high + 1) 4 - low)).map fun v => (v, v)]
      (if low ≤ 4 ∧ 4 ≤ high then .gap 4 else .ended)

def untilFour (v : Nat) : Multiset Nat := if v < 4 then {v} else 0

theorem offAtFour_valid (latest : Option Nat) : (offAtFour latest).Valid untilFour := by
  intro _ _ low high hle _
  apply Reading.Gives.kernel
  have hflat : [[], (List.range' low (min (high + 1) 4 - low)).map fun v => (v, v)].flatten =
      (List.range' low (min (high + 1) 4 - low)).map fun v => (v, v) := by simp
  refine ⟨?_, ?_, ?_⟩
  · rw [hflat, InCommitOrder, pairwise_map]
    exact (pairwise_lt_range' 1 (by omega)).imp fun h => h.le
  · intro g hg
    split_ifs at hg with hgap
    cases hg
    exact hgap
  · rw [hflat]
    refine ⟨?_, ?_⟩
    · intro c hc
      obtain ⟨v, hv, rfl⟩ := mem_map.mp hc
      rw [mem_range'_1] at hv
      split_ifs <;> simp only [Ending.bound] <;> omega
    · intro v hlow hbound
      have hrows : rowsOf ((List.range' low (min (high + 1) 4 - low)).map fun v => (v, v)) v =
          ((List.range' low (min (high + 1) 4 - low)).filter (· = v) : List Nat) := by
        rw [rowsOf, filter_map, map_map]
        exact congrArg _ (map_id _)
      rw [hrows, filter_eq, untilFour]
      by_cases hfour : v < 4
      · have hmem : v ∈ List.range' low (min (high + 1) 4 - low) := by
          rw [mem_range'_1]
          split_ifs at hbound <;> simp only [Ending.bound] at hbound <;> omega
        rw [if_pos hfour, count_eq_one_of_mem nodup_range' hmem]
        rfl
      · have hmem : v ∉ List.range' low (min (high + 1) 4 - low) := by
          rw [mem_range'_1]
          omega
        rw [if_neg hfour, count_eq_zero_of_not_mem hmem]
        rfl

theorem changes_follow_offAtFour :
    Follows id untilFour 1
      (changes id [offAtFour none, offAtFour (some 2), offAtFour (some 5)] 1 none).1
      (changes id [offAtFour none, offAtFour (some 2), offAtFour (some 5)] 1 none).2 ∧
    (changes id [offAtFour none, offAtFour (some 2), offAtFour (some 5)] 1 none) =
      ([(1, [1]), (2, [2]), (3, [3])], .gap 4) := by
  constructor
  · refine (changes_follow ?_ 1).1
    intro p hp
    simp only [mem_cons, not_mem_nil, or_false] at hp
    rcases hp with rfl | rfl | rfl <;> exact offAtFour_valid _
  · decide +kernel

theorem changes_snapshot {polls : List (Poll σ δ)} (hvalid : ∀ p ∈ polls, p.Valid rows)
    (start : Nat) (table : List ε) : ∃ ys, (changes select polls start (some table)).1 =
        (start, table) :: ys ∧
      Follows select rows (start + 1) ys (changes select polls start (some table)).2 := by
  obtain ⟨bound, -, hdelivers, hleaves⟩ := follow_delivers select hvalid (start + 1)
  exact ⟨_, rfl, hdelivers.follows hleaves⟩

theorem changes_snapshot_offAtFour : ∃ ys,
    (changes id [offAtFour none, offAtFour (some 5)] 0 (some [0])).1 = (0, [0]) :: ys ∧
      Follows id untilFour 1 ys
        (changes id [offAtFour none, offAtFour (some 5)] 0 (some [0])).2 := by
  refine changes_snapshot ?_ 0 [0]
  intro p hp
  simp only [mem_cons, not_mem_nil, or_false] at hp
  rcases hp with rfl | rfl <;> exact offAtFour_valid _

end DeltaSwamp.Feed
