import DeltaSwamp.Runs

/-!
# A change feed, version by version

`_by_version` and `_stream_by_version`: the batches of a change feed, cut into
the rows of one commit each.
-/

namespace DeltaSwamp.Feed

open Runs List

/-- A row of a change feed, under its `_commit_version`. -/
abbrev Change (δ : Type) := Nat × δ

/-- A version with its change rows. -/
abbrev Yield (ε : Type) := Nat × List ε

/-- How the batches of a feed end. -/
inductive Ending where
  | ended
  /-- The feed was off at a version: an `UnreachableTableError` that names it. -/
  | gap (version : Nat)
  deriving DecidableEq

/-- How a reading of the feed leaves off. -/
inductive Stop where
  | finished
  /-- The `UnreachableTableError` of a gap. -/
  | gap (version : Nat)
  /-- `CorruptTableError`: rows of a version after later ones. -/
  | corrupt (version : Nat)
  deriving DecidableEq

section
variable {δ ε : Type} (select : δ → ε)

/-- `_by_version`: a table of changes sorted and sliced by version. -/
def byVersion (changes : List (Change δ)) : List (Yield ε) :=
  let sorted := changes.insertionSort fun a b => a.1 ≤ b.1
  (slices sorted (valueCounts (sorted.map Prod.fst)) 0).map fun e =>
    (e.1, e.2.map fun c => select c.2)

/-- The least version of a batch. -/
def lowest : List (Change δ) → Int
  | [] => 0
  | [c] => c.1
  | c :: rest => min (c.1 : Int) (lowest rest)

/-- The greatest version of a batch. -/
def highest : List (Change δ) → Int
  | [] => 0
  | [c] => c.1
  | c :: rest => max (c.1 : Int) (highest rest)

/-- The loop of `_stream_by_version`. -/
def streamLoop (ending : Ending) (buffered : List (Change δ)) (top done : Int) :
    List (List (Change δ)) → List (Yield ε) × Stop
  | [] =>
    match ending with
    | .ended => (if buffered ≠ [] then byVersion select buffered else [], .finished)
    | .gap version =>
      (if buffered ≠ [] ∧ top < version then byVersion select buffered else [], .gap version)
  | batch :: batches =>
    if batch = [] then streamLoop ending buffered top done batches
    else if lowest batch ≤ done then ([], .corrupt (lowest batch).toNat)
    else if buffered ≠ [] ∧ top < lowest batch then
      let rest := streamLoop ending batch (max top (highest batch)) top batches
      (byVersion select buffered ++ rest.1, rest.2)
    else streamLoop ending (buffered ++ batch) (max top (highest batch)) done batches

/-- `_stream_by_version`. -/
def streamByVersion (batches : List (List (Change δ))) (ending : Ending) :
    List (Yield ε) × Stop :=
  streamLoop select ending [] (-1) (-1) batches

end

section
variable {δ ε : Type} {select : δ → ε} {rows : Nat → Multiset δ}

variable (select rows) in
/-- The yields deliver the versions from `low` up to `bound`: each that has rows, once, in
order, with exactly its rows. -/
structure Delivers (low bound : Nat) (ys : List (Yield ε)) : Prop where
  increasing : (ys.map Prod.fst).Pairwise (· < ·)
  exact : ∀ y ∈ ys, low ≤ y.1 ∧ y.1 < bound ∧ rows y.1 ≠ 0 ∧
    (y.2 : Multiset ε) = (rows y.1).map select
  complete : ∀ v, low ≤ v → v < bound → rows v ≠ 0 → v ∈ ys.map Prod.fst

theorem Delivers.nil (n : Nat) : Delivers select rows n n [] :=
  ⟨List.Pairwise.nil, nofun, fun _ hlow hbound => absurd hbound (Nat.not_lt.mpr hlow)⟩

variable {low bound : Nat}

theorem Delivers.append {mid : Nat} {ys zs : List (Yield ε)} (hlow : low ≤ mid)
    (hbound : mid ≤ bound) (h : Delivers select rows low mid ys)
    (h' : Delivers select rows mid bound zs) : Delivers select rows low bound (ys ++ zs) := by
  refine ⟨?_, ?_, ?_⟩
  · rw [map_append, pairwise_append]
    refine ⟨h.increasing, h'.increasing, fun v hv w hw => ?_⟩
    obtain ⟨y, hy, rfl⟩ := mem_map.mp hv
    obtain ⟨z, hz, rfl⟩ := mem_map.mp hw
    have hbefore := (h.exact y hy).2.1
    have hafter := (h'.exact z hz).1
    omega
  · intro y hy
    rcases mem_append.mp hy with hy | hy
    · obtain ⟨h₁, h₂, hrest⟩ := h.exact y hy
      exact ⟨h₁, by omega, hrest⟩
    · obtain ⟨h₁, h₂, hrest⟩ := h'.exact y hy
      exact ⟨by omega, h₂, hrest⟩
  · intro v hv hv' hrows
    rw [map_append, mem_append]
    by_cases hmid : v < mid
    · exact .inl (h.complete v hv hmid hrows)
    · exact .inr (h'.complete v (by omega) hv' hrows)

/-- A consumer that stopped after some of the yields has all the versions up to its last. -/
theorem Delivers.taken {ys zs : List (Yield ε)} (h : Delivers select rows low bound (ys ++ zs))
    {last : Yield ε} (hlast : ys.getLast? = some last) :
    Delivers select rows low (last.1 + 1) ys := by
  obtain ⟨init, rfl⟩ : ∃ init, ys = init ++ [last] :=
    ⟨ys.dropLast, (dropLast_append_getLast? last hlast).symm⟩
  have hsorted := h.increasing
  rw [map_append, pairwise_append] at hsorted
  obtain ⟨hys, -, hlater⟩ := hsorted
  have hends : ∀ y ∈ init ++ [last], y.1 ≤ last.1 := by
    intro y hy
    rcases mem_append.mp hy with hy | hy
    · rw [map_append, pairwise_append] at hys
      exact (hys.2.2 y.1 (mem_map_of_mem hy) last.1 (by simp)).le
    · rw [mem_singleton.mp hy]
  refine ⟨hys, ?_, ?_⟩
  · intro y hy
    obtain ⟨h₁, -, hrest⟩ := h.exact y (mem_append_left _ hy)
    have hle := hends y hy
    exact ⟨h₁, by omega, hrest⟩
  · intro v hv hv' hrows
    have hbound := (h.exact last (by simp)).2.1
    have hmem := h.complete v hv (by omega) hrows
    rw [map_append, mem_append] at hmem
    rcases hmem with hmem | hmem
    · exact hmem
    · have hafter := hlater last.1 (by simp) v hmem
      omega

/-- The rows of one version among the changes. -/
def rowsOf (changes : List (Change δ)) (v : Nat) : Multiset δ :=
  ((changes.filter fun c => c.1 = v).map Prod.snd : List δ)

/-- The changes are the rows of the versions from `low` up to `bound`. -/
structure Holds (rows : Nat → Multiset δ) (low bound : Nat) (changes : List (Change δ)) : Prop where
  within : ∀ c ∈ changes, low ≤ c.1 ∧ c.1 < bound
  exact : ∀ v, low ≤ v → v < bound → rowsOf changes v = rows v

variable {changes : List (Change δ)}

theorem rowsOf_ne_zero {v : Nat} : rowsOf changes v ≠ 0 ↔ v ∈ changes.map Prod.fst := by
  simp [rowsOf, Multiset.coe_eq_zero]

theorem rowsOf_perm {changes' : List (Change δ)} (h : changes.Perm changes') (v : Nat) :
    rowsOf changes v = rowsOf changes' v :=
  Multiset.coe_eq_coe.mpr ((h.filter _).map _)

variable (select) in
theorem byVersion_delivers (h : Holds rows low bound changes) :
    Delivers select rows low bound (byVersion select changes) := by
  have hsorted : Sorted (fun c : Change δ => c.1)
      (changes.insertionSort fun a b => a.1 ≤ b.1) :=
    have : Std.Total fun a b : Change δ => a.1 ≤ b.1 := ⟨fun a b => Nat.le_total a.1 b.1⟩
    have : IsTrans (Change δ) fun a b => a.1 ≤ b.1 := ⟨fun _ _ _ => Nat.le_trans⟩
    pairwise_insertionSort _ _
  have hperm := perm_insertionSort (fun a b : Change δ => a.1 ≤ b.1) changes
  set sorted := changes.insertionSort fun a b => a.1 ≤ b.1 with hdef
  have hyields : byVersion select changes = (sorted.map Prod.fst).reverse.dedup.reverse.map
      fun v => (v, (sorted.filter fun c => c.1 = v).map fun c => select c.2) := by
    rw [byVersion, ← hdef, slices_valueCounts hsorted, map_map]
    rfl
  have hversions : (byVersion select changes).map Prod.fst =
      (sorted.map Prod.fst).reverse.dedup.reverse := by
    rw [hyields, map_map]
    exact map_id' _
  have hmem : ∀ v, v ∈ (sorted.map Prod.fst).reverse.dedup.reverse ↔
      v ∈ changes.map Prod.fst := by
    intro v
    rw [mem_distinct]
    exact (hperm.map Prod.fst).mem_iff
  refine ⟨?_, ?_, ?_⟩
  · rw [hversions]
    exact distinct_increasing (pairwise_map.mpr hsorted)
  · intro y hy
    rw [hyields] at hy
    obtain ⟨v, hv, rfl⟩ := mem_map.mp hy
    rw [hmem] at hv
    obtain ⟨c, hc, rfl⟩ := mem_map.mp hv
    obtain ⟨hlow, hbound⟩ := h.within c hc
    refine ⟨hlow, hbound, ?_, ?_⟩
    · rw [← h.exact _ hlow hbound]
      exact rowsOf_ne_zero.mpr hv
    · rw [← h.exact _ hlow hbound, rowsOf_perm hperm.symm, rowsOf, Multiset.map_coe, map_map]
      rfl
  · intro v hlow hbound hrows
    rw [hversions, hmem, ← rowsOf_ne_zero, h.exact v hlow hbound]
    exact hrows

end

variable {δ ε : Type} {select : δ → ε} {rows : Nat → Multiset δ}

variable {batch : List (Change δ)}

theorem lowest_spec (h : batch ≠ []) :
    (∃ c ∈ batch, lowest batch = c.1) ∧ ∀ c ∈ batch, lowest batch ≤ c.1 := by
  induction batch with
  | nil => exact absurd rfl h
  | cons c rest ih =>
    cases rest with
    | nil => simp [lowest]
    | cons d rest =>
      obtain ⟨⟨e, he, heq⟩, hle⟩ := ih (by simp)
      have hcons : lowest (c :: d :: rest) = min (c.1 : Int) (lowest (d :: rest)) := rfl
      rw [hcons]
      constructor
      · by_cases hmin : (c.1 : Int) ≤ lowest (d :: rest)
        · exact ⟨c, by simp, min_eq_left hmin⟩
        · refine ⟨e, mem_cons_of_mem c he, ?_⟩
          rw [← heq]
          exact min_eq_right (by omega)
      · intro x hx
        rcases mem_cons.mp hx with rfl | hx
        · exact min_le_left _ _
        · exact (min_le_right _ _).trans (hle x hx)

theorem highest_spec (h : batch ≠ []) :
    (∃ c ∈ batch, highest batch = c.1) ∧ ∀ c ∈ batch, (c.1 : Int) ≤ highest batch := by
  induction batch with
  | nil => exact absurd rfl h
  | cons c rest ih =>
    cases rest with
    | nil => simp [highest]
    | cons d rest =>
      obtain ⟨⟨e, he, heq⟩, hle⟩ := ih (by simp)
      have hcons : highest (c :: d :: rest) = max (c.1 : Int) (highest (d :: rest)) := rfl
      rw [hcons]
      constructor
      · by_cases hmax : (c.1 : Int) ≤ highest (d :: rest)
        · refine ⟨e, mem_cons_of_mem c he, ?_⟩
          rw [← heq]
          exact max_eq_right hmax
        · exact ⟨c, by simp, max_eq_left (by omega)⟩
      · intro x hx
        rcases mem_cons.mp hx with rfl | hx
        · exact le_max_left _ _
        · exact (hle x hx).trans (le_max_right _ _)

def InCommitOrder (changes : List (Change δ)) : Prop :=
  changes.Pairwise fun a b => a.1 ≤ b.1

/-- The version a feed of `low` to `high` delivers all the versions before. -/
def Ending.bound (high : Nat) : Ending → Nat
  | .ended => high + 1
  | .gap version => version

def Ending.stop : Ending → Stop
  | .ended => .finished
  | .gap version => .gap version

/-- A feed of a range, in batches of any cut: the rows of its versions in commit order, up
to the end or to a version in the range at which the feed was off. -/
structure Gives (rows : Nat → Multiset δ) (low high : Nat) (batches : List (List (Change δ)))
    (ending : Ending) : Prop where
  inOrder : InCommitOrder batches.flatten
  gap : ∀ g, ending = .gap g → low ≤ g ∧ g ≤ high
  holds : Holds rows low (ending.bound high) batches.flatten

/-- `top` is the greatest version buffered. -/
structure Tops (buffered : List (Change δ)) (top : Int) : Prop where
  above : ∀ c ∈ buffered, (c.1 : Int) ≤ top
  reached : (buffered = [] ∧ top = -1) ∨ ∃ c ∈ buffered, top = c.1

theorem Tops.nil : Tops ([] : List (Change δ)) (-1) := ⟨nofun, .inl ⟨rfl, rfl⟩⟩

variable {top : Int}

theorem Tops.append {buffered : List (Change δ)} (h : Tops buffered top) (hbatch : batch ≠ []) :
    Tops (buffered ++ batch) (max top (highest batch)) := by
  obtain ⟨⟨e, he, heq⟩, hle⟩ := highest_spec hbatch
  refine ⟨?_, .inr ?_⟩
  · intro c hc
    rcases mem_append.mp hc with hc | hc
    · exact (h.above c hc).trans (le_max_left _ _)
    · exact (hle c hc).trans (le_max_right _ _)
  · by_cases hmax : top ≤ highest batch
    · refine ⟨e, mem_append_right _ he, ?_⟩
      rw [max_eq_right hmax, heq]
    · rcases h.reached with ⟨-, htop⟩ | ⟨c, hc, htop⟩
      · omega
      · refine ⟨c, mem_append_left _ hc, ?_⟩
        rw [max_eq_left (by omega), htop]

theorem Tops.later (hbatch : batch ≠ []) (htop : top < lowest batch) :
    Tops batch (max top (highest batch)) := by
  obtain ⟨⟨e, he, heq⟩, hle⟩ := highest_spec hbatch
  have hlow := (lowest_spec hbatch).2 e he
  have hmax : max top (highest batch) = highest batch := max_eq_right (by omega)
  rw [hmax]
  exact ⟨hle, .inr ⟨e, he, heq⟩⟩

theorem rowsOf_append (changes more : List (Change δ)) (v : Nat) :
    rowsOf (changes ++ more) v = rowsOf changes v + rowsOf more v := by
  simp [rowsOf]

theorem rowsOf_eq_zero {changes : List (Change δ)} {v : Nat} (h : ∀ c ∈ changes, c.1 ≠ v) :
    rowsOf changes v = 0 := by
  rw [rowsOf, Multiset.coe_eq_zero, map_eq_nil_iff, filter_eq_nil_iff]
  simpa using h

variable {low : Nat}

theorem Holds.split {mid bound : Nat} {changes more : List (Change δ)}
    (h : Holds rows low bound (changes ++ more)) (hlow : low ≤ mid) (hbound : mid ≤ bound)
    (hbefore : ∀ c ∈ changes, c.1 < mid) (hafter : ∀ c ∈ more, mid ≤ c.1) :
    Holds rows low mid changes ∧ Holds rows mid bound more := by
  constructor
  · refine ⟨?_, ?_⟩
    · intro c hc
      exact ⟨(h.within c (mem_append_left _ hc)).1, hbefore c hc⟩
    · intro v hv hv'
      have hexact := h.exact v hv (by omega)
      have hnone : rowsOf more v = 0 := rowsOf_eq_zero fun c hc => by
        have := hafter c hc
        omega
      rwa [rowsOf_append, hnone, add_zero] at hexact
  · refine ⟨?_, ?_⟩
    · intro c hc
      exact ⟨hafter c hc, (h.within c (mem_append_right _ hc)).2⟩
    · intro v hv hv'
      have hexact := h.exact v (by omega) hv'
      have hnone : rowsOf changes v = 0 := rowsOf_eq_zero fun c hc => by
        have := hbefore c hc
        omega
      rwa [rowsOf_append, hnone, zero_add] at hexact

theorem byVersion_nil : byVersion select ([] : List (Change δ)) = [] := rfl

variable {high : Nat} {ending : Ending}

theorem streamLoop_end {buffered : List (Change δ)} {done : Int}
    (hholds : Holds rows low (ending.bound high) buffered) (htops : Tops buffered top) :
    Delivers select rows low (ending.bound high) (streamLoop select ending buffered top done []).1 ∧
      (streamLoop select ending buffered top done []).2 = ending.stop := by
  have hflush := byVersion_delivers select hholds
  by_cases hempty : buffered = []
  · subst hempty
    rw [byVersion_nil] at hflush
    cases ending with
    | ended => exact ⟨hflush, rfl⟩
    | gap version =>
      simp only [streamLoop, ne_eq, not_true_eq_false, false_and, if_false]
      exact ⟨hflush, rfl⟩
  · cases ending with
    | ended =>
      simp only [streamLoop, if_pos hempty]
      exact ⟨hflush, rfl⟩
    | gap version =>
      have htop : top < version := by
        rcases htops.reached with ⟨hnil, -⟩ | ⟨c, hc, htop⟩
        · exact absurd hnil hempty
        · have hbound : c.1 < version := (hholds.within c hc).2
          omega
      simp only [streamLoop, if_pos (And.intro hempty htop)]
      exact ⟨hflush, rfl⟩

theorem streamLoop_delivers (batches : List (List (Change δ))) :
    ∀ {low : Nat} {buffered : List (Change δ)} {top done : Int},
      InCommitOrder (buffered ++ batches.flatten) →
      Holds rows low (ending.bound high) (buffered ++ batches.flatten) →
      Tops buffered top → done < low →
      Delivers select rows low (ending.bound high)
        (streamLoop select ending buffered top done batches).1 ∧
      (streamLoop select ending buffered top done batches).2 = ending.stop := by
  induction batches with
  | nil =>
    intro low buffered top done _ hholds htops _
    rw [flatten_nil, append_nil] at hholds
    exact streamLoop_end hholds htops
  | cons batch batches ih =>
    intro low buffered top done hordered hholds htops hdone
    rw [flatten_cons] at hordered hholds
    by_cases hbatch : batch = []
    · subst hbatch
      rw [nil_append] at hordered hholds
      rw [streamLoop, if_pos rfl]
      exact ih hordered hholds htops hdone
    · obtain ⟨⟨c, hc, hlowest⟩, hleast⟩ := lowest_spec hbatch
      have hmember : c ∈ buffered ++ (batch ++ batches.flatten) := by simp [hc]
      have hc' := hholds.within c hmember
      have hnew : ¬ lowest batch ≤ done := by omega
      rw [streamLoop, if_neg hbatch, if_neg hnew]
      by_cases hflush : buffered ≠ [] ∧ top < lowest batch
      · rw [if_pos hflush]
        obtain ⟨hbuffered, htop⟩ := hflush
        rcases htops.reached with ⟨hnil, -⟩ | ⟨b, hb, hreached⟩
        · exact absurd hnil hbuffered
        have hb' := hholds.within b (mem_append_left _ hb)
        -- Nothing of a version buffered is still to come.
        have hlater : ∀ d ∈ batch ++ batches.flatten, b.1 + 1 ≤ d.1 := by
          intro d hd
          have hpast : c.1 ≤ d.1 := by
            rcases mem_append.mp hd with hd | hd
            · have := hleast d hd
              omega
            · have hrest := (pairwise_append.mp hordered).2.1
              exact (pairwise_append.mp hrest).2.2 c hc d hd
          omega
        obtain ⟨hnow, hrest⟩ := hholds.split (by omega) (by omega) (fun d hd => by
          have := htops.above d hd
          omega) hlater
        have hdone' : top < (b.1 + 1 : Nat) := by omega
        obtain ⟨hdelivers, hstop⟩ := ih (pairwise_append.mp hordered).2.1 hrest
          (Tops.later hbatch htop) hdone'
        exact ⟨(byVersion_delivers select hnow).append (by omega) (by omega) hdelivers, hstop⟩
      · rw [if_neg hflush]
        rw [← append_assoc] at hordered hholds
        exact ih hordered hholds (htops.append hbatch) hdone

variable (select) in
theorem streamByVersion_delivers {batches : List (List (Change δ))}
    (h : Gives rows low high batches ending) :
    Delivers select rows low (ending.bound high) (streamByVersion select batches ending).1 ∧
      (streamByVersion select batches ending).2 = ending.stop := by
  refine streamLoop_delivers batches ?_ ?_ Tops.nil (by omega)
  · rw [nil_append]
    exact h.inOrder
  · rw [nil_append]
    exact h.holds

end DeltaSwamp.Feed
