import DeltaSwamp.Heap
import DeltaSwamp.Text

/-!
# Balancing splits

`balance` in `distributed.py`: the splits of a scan, largest first, each put
into the lightest bin. Of a split it reads the size and the path.
-/

namespace DeltaSwamp.Distributed

open Heap List

/-- A bin's load and its index, in the order of Python's tuples. -/
abbrev Loaded := Nat ×ₗ Nat

section
variable {σ : Type} (size : σ → Nat) (path : σ → Text)

def load (group : List σ) : Nat := (group.map size).sum

/-- Sorted by `(-size, path)`. -/
def largestFirst (splits : List σ) : List σ :=
  splits.insertionSort fun a b => size b < size a ∨ size a = size b ∧ path a ≤ path b

/-- The loop: `loads` is the heap. A pop of the empty heap raises. -/
def assign (bins : List (List σ)) (loads : List Loaded) : List σ → Option (List (List σ))
  | [] => some bins
  | split :: rest =>
    match popLeast loads with
    | none => none
    | some (lightest, loads) =>
      assign (bins.modify (ofLex lightest).2 (· ++ [split]))
        (toLex ((ofLex lightest).1 + size split, (ofLex lightest).2) :: loads) rest

def binCount (n : Int) (items : List σ) : Nat := (max 1 (min n items.length)).toNat

def balance (splits : List σ) (n : Int) : Option (List (List σ)) :=
  let items := largestFirst size path splits
  if items = [] then some []
  else
    let count := binCount n items
    (assign size (List.replicate count []) ((List.range count).map fun i => toLex (0, i))
      items).map fun bins => bins.filter (· ≠ [])

/-- The heap lists each bin once, by its load, and the loads are even. -/
structure Tracks (w : Nat) (bins : List (List σ)) (loads : List Loaded) : Prop where
  listed : (loads.map fun e => (ofLex e).2).Perm (List.range bins.length)
  loaded : ∀ e ∈ loads, ∀ bin, bins[(ofLex e).2]? = some bin → (ofLex e).1 = load size bin
  even : Spread w (loads.map fun e => (ofLex e).1)

end

section
variable {σ : Type} {size : σ → Nat} {path : σ → Text} {w : Nat} {bins : List (List σ)}
  {loads : List Loaded}

theorem load_append (a b : List σ) : load size (a ++ b) = load size a + load size b := by
  simp [load]

theorem tracks_empty (w count : Nat) :
    Tracks size w (List.replicate count []) ((List.range count).map fun i => toLex (0, i)) where
  listed := by simp [Function.comp_def]
  loaded := by
    intro e he bin hbin
    obtain ⟨i, -, rfl⟩ := mem_map.mp he
    have hempty := eq_of_mem_replicate (mem_of_getElem? hbin)
    simp [hempty, load]
  even := by
    have hzero : ((List.range count).map fun i => (toLex (0, i) : Loaded)).map
        (fun e => (ofLex e).1) = List.replicate count 0 := by
      simp [Function.comp_def]
    rw [hzero]
    exact spread_replicate (Nat.zero_le w) count 0

theorem Tracks.index_lt (h : Tracks size w bins loads) {e : Loaded} (he : e ∈ loads) :
    (ofLex e).2 < bins.length :=
  mem_range.mp (h.listed.subset (mem_map_of_mem he))

theorem Tracks.place (h : Tracks size w bins loads) {split : σ} (hw : size split ≤ w)
    {lightest : Loaded} {rest : List Loaded} (hpop : popLeast loads = some (lightest, rest)) :
    Tracks size w (bins.modify (ofLex lightest).2 (· ++ [split]))
      (toLex ((ofLex lightest).1 + size split, (ofLex lightest).2) :: rest) := by
  obtain ⟨hperm, hleast⟩ := popLeast_eq_some hpop
  have hindices := (hperm.map fun e => (ofLex e).2).symm.trans h.listed
  have hapart : (ofLex lightest).2 ∉ rest.map fun e => (ofLex e).2 := by
    have hnodup := hindices.nodup_iff.mpr nodup_range
    rw [map_cons, nodup_cons] at hnodup
    exact hnodup.1
  constructor
  · rw [length_modify]
    exact hindices
  · intro e he bin hbin
    cases mem_cons.mp he with
    | inl hnew =>
      subst hnew
      simp only [ofLex_toLex, List.getElem?_modify_eq, Option.map_eq_map,
        Option.map_eq_some_iff] at hbin ⊢
      obtain ⟨before, hbefore, rfl⟩ := hbin
      rw [load_append, h.loaded lightest (hperm.mem_iff.mpr (by simp)) before hbefore]
      simp [load]
    | inr hold =>
      have hne : (ofLex lightest).2 ≠ (ofLex e).2 := by
        intro heq
        exact hapart (heq ▸ mem_map_of_mem hold)
      rw [List.getElem?_modify_ne _ _ hne] at hbin
      exact h.loaded e (hperm.mem_iff.mpr (by simp [hold])) bin hbin
  · have heven := h.even.perm (hperm.map fun e => (ofLex e).1).symm
    rw [map_cons] at heven ⊢
    apply heven.raise _ (Nat.zero_le _) hw
    intro a ha
    obtain ⟨e, he, rfl⟩ := mem_map.mp ha
    have hle := hleast e (hperm.mem_iff.mpr (by simp [he]))
    rw [Prod.Lex.le_iff] at hle
    omega

theorem flatten_modify_perm (bins : List (List σ)) {i : Nat} (hi : i < bins.length) (split : σ) :
    (bins.modify i (· ++ [split])).flatten.Perm (split :: bins.flatten) := by
  induction bins generalizing i with
  | nil => simp at hi
  | cons bin bins ih =>
    cases i with
    | zero =>
      simp only [modify_zero_cons, flatten_cons, append_assoc]
      exact perm_middle
    | succ i =>
      rw [modify_succ_cons, flatten_cons, flatten_cons]
      have hrest := ih (Nat.lt_of_succ_lt_succ hi)
      exact (hrest.append_left bin).trans perm_middle

variable {splits : List σ}

theorem assign_spec (h : Tracks size w bins loads) (hne : bins ≠ [])
    (hw : ∀ s ∈ splits, size s ≤ w) :
    ∃ out final, assign size bins loads splits = some out ∧ out.length = bins.length ∧
      out.flatten.Perm (bins.flatten ++ splits) ∧ Tracks size w out final := by
  induction splits generalizing bins loads with
  | nil => exact ⟨bins, loads, rfl, rfl, by simp, h⟩
  | cons split rest ih =>
    have hloads : loads ≠ [] := by
      intro hempty
      have hlength := h.listed.length_eq
      simp only [hempty, map_nil, length_nil, length_range] at hlength
      exact hne (eq_nil_of_length_eq_zero hlength.symm)
    obtain ⟨lightest, left, hpop⟩ := exists_popLeast hloads
    have hin : lightest ∈ loads := (popLeast_eq_some hpop).1.mem_iff.mpr (by simp)
    have hplaced := h.place (hw split (by simp)) hpop
    obtain ⟨out, final, hout, hlength, hperm, htracks⟩ := ih hplaced (by
      intro hempty
      have hlength := congrArg List.length hempty
      rw [length_modify] at hlength
      exact hne (eq_nil_of_length_eq_zero hlength)) fun s hs => hw s (by simp [hs])
    refine ⟨out, final, ?_, ?_, ?_, htracks⟩
    · rw [assign, hpop]
      exact hout
    · rw [hlength, length_modify]
    · have hmodify := flatten_modify_perm bins (h.index_lt hin) split
      exact hperm.trans ((hmodify.append_right rest).trans
        (by simpa using (@List.perm_middle _ split bins.flatten rest).symm))

theorem Tracks.even_bins (h : Tracks size w bins loads) :
    ∀ a ∈ bins, ∀ b ∈ bins, load size a ≤ load size b + w := by
  have hload : ∀ bin ∈ bins, load size bin ∈ loads.map fun e => (ofLex e).1 := by
    intro bin hbin
    obtain ⟨i, hi⟩ := mem_iff_getElem?.mp hbin
    have hlt : i < bins.length := (List.getElem?_eq_some_iff.mp hi).1
    obtain ⟨e, he, heq⟩ := mem_map.mp (h.listed.mem_iff.mpr (mem_range.mpr hlt))
    have hloaded := h.loaded e he bin (heq ▸ hi)
    exact hloaded ▸ mem_map_of_mem he
  intro a ha b hb
  exact h.even _ (hload a ha) _ (hload b hb)

variable (size path) in
theorem largestFirst_perm (splits : List σ) : (largestFirst size path splits).Perm splits :=
  perm_insertionSort _ splits

theorem binCount_le {n : Int} (hn : 1 ≤ n) (items : List σ) : (binCount n items : Int) ≤ n := by
  unfold binCount
  omega

theorem binCount_pos (n : Int) (items : List σ) : 0 < binCount n items := by
  unfold binCount
  omega

theorem le_largest {split : σ} (h : split ∈ splits) : size split ≤ (splits.map size).foldr max 0 :=
  le_max_of_le' 0 (mem_map_of_mem h) le_rfl

/-- What `balance` reads of a split. -/
def splitKey (size : σ → Nat) (path : σ → Text) (split : σ) : Nat × Text := (size split, path split)

theorem modify_map_append {α β : Type} (f : α → β) (bins : List (List α)) (i : Nat) (a : α) :
    (bins.modify i (· ++ [a])).map (List.map f) =
      (bins.map (List.map f)).modify i (· ++ [f a]) := by
  induction bins generalizing i with
  | nil => simp
  | cons bin bins ih => cases i <;> simp [ih]

variable (size path) in
theorem assign_map (bins : List (List σ)) (loads : List Loaded) (splits : List σ) :
    (assign size bins loads splits).map (List.map (List.map (splitKey size path))) =
      assign Prod.fst (bins.map (List.map (splitKey size path))) loads
        (splits.map (splitKey size path)) := by
  induction splits generalizing bins loads with
  | nil => rfl
  | cons split rest ih =>
    rw [map_cons, assign, assign]
    cases popLeast loads with
    | none => rfl
    | some popped =>
      obtain ⟨lightest, left⟩ := popped
      dsimp only
      rw [ih, modify_map_append]
      rfl

theorem largestFirst_map (splits : List σ) :
    (largestFirst size path splits).map (splitKey size path) =
      largestFirst Prod.fst Prod.snd (splits.map (splitKey size path)) :=
  map_insertionSort _ _ _ _ fun _ _ _ _ => Iff.rfl

theorem balance_map (splits : List σ) (n : Int) :
    (balance size path splits n).map (List.map (List.map (splitKey size path))) =
      balance Prod.fst Prod.snd (splits.map (splitKey size path)) n := by
  unfold balance
  simp only [← largestFirst_map, map_eq_nil_iff]
  split_ifs
  · rfl
  · have hcount : binCount n ((largestFirst size path splits).map (splitKey size path)) =
        binCount n (largestFirst size path splits) := by
      simp [binCount]
    have hassign := assign_map size path
      (List.replicate (binCount n (largestFirst size path splits)) [])
      ((List.range (binCount n (largestFirst size path splits))).map fun i => toLex (0, i))
      (largestFirst size path splits)
    rw [map_replicate, map_nil] at hassign
    rw [hcount, ← hassign, Option.map_map, Option.map_map]
    congr 1
    funext bins
    simp [Function.comp_def, filter_map]

theorem pairwise_largestFirst (splits : List σ) : (largestFirst size path splits).Pairwise
    fun a b => size b < size a ∨ size a = size b ∧ path a ≤ path b := by
  have : Std.Total fun a b : σ => size b < size a ∨ size a = size b ∧ path a ≤ path b :=
    ⟨fun a b => by have := le_total (path a) (path b); grind⟩
  have : IsTrans σ fun a b => size b < size a ∨ size a = size b ∧ path a ≤ path b :=
    ⟨fun a b c => by have := @le_trans _ _ (path a) (path b) (path c); grind⟩
  exact pairwise_insertionSort _ splits

theorem largestFirst_eq {others : List σ} (hperm : splits.Perm others)
    (hkeys : ∀ a ∈ splits, ∀ b ∈ splits, splitKey size path a = splitKey size path b → a = b) :
    largestFirst size path splits = largestFirst size path others := by
  have hsorted : (largestFirst size path splits).Perm (largestFirst size path others) :=
    (largestFirst_perm size path splits).trans
      (hperm.trans (largestFirst_perm size path others).symm)
  refine hsorted.eq_of_pairwise ?_ (pairwise_largestFirst splits) (pairwise_largestFirst others)
  intro a b ha hb hab hba
  have ha' := (largestFirst_perm size path splits).mem_iff.mp ha
  have hb' := hperm.mem_iff.mpr ((largestFirst_perm size path others).mem_iff.mp hb)
  apply hkeys a ha' b hb'
  have := @le_antisymm _ _ (path a) (path b)
  simp only [splitKey, Prod.mk.injEq]
  grind

theorem balance_perm {others : List σ} (n : Int) (hperm : splits.Perm others)
    (hkeys : ∀ a ∈ splits, ∀ b ∈ splits, splitKey size path a = splitKey size path b → a = b) :
    balance size path splits n = balance size path others n := by
  unfold balance
  rw [largestFirst_eq hperm hkeys]

/-- The groups partition the splits, there are no more than asked for, and they come out even. -/
theorem balance_groups (splits : List σ) {n : Int} (hn : 1 ≤ n) :
    ∃ groups, balance size path splits n = some groups ∧ (groups.length : Int) ≤ n ∧
      (∀ g ∈ groups, g ≠ []) ∧ groups.flatten.Perm splits ∧
      ∀ g ∈ groups, ∀ h ∈ groups, load size g ≤ load size h + (splits.map size).foldr max 0 := by
  have hitems := largestFirst_perm size path splits
  by_cases hempty : largestFirst size path splits = []
  · rw [hempty] at hitems
    refine ⟨[], ?_, by simpa using Int.le_of_lt hn, by simp, by simpa using hitems, by simp⟩
    simp [balance, hempty]
  · let count := binCount n (largestFirst size path splits)
    have hbins : List.replicate count ([] : List σ) ≠ [] := by
      simpa [replicate_eq_nil_iff] using (binCount_pos n (largestFirst size path splits)).ne'
    have hlargest : ∀ s ∈ largestFirst size path splits, size s ≤ (splits.map size).foldr max 0 :=
      fun s hs => le_largest (hitems.mem_iff.mp hs)
    obtain ⟨out, final, hout, hlength, hperm, htracks⟩ :=
      assign_spec (tracks_empty ((splits.map size).foldr max 0) count) hbins hlargest
    refine ⟨out.filter (· ≠ []), ?_, ?_, ?_, ?_, ?_⟩
    · simp only [balance, hempty, if_false]
      rw [hout]
      rfl
    · have hcount := binCount_le hn (largestFirst size path splits)
      have hfilter := length_filter_le (fun g : List σ => decide (g ≠ [])) out
      rw [length_replicate] at hlength
      omega
    · intro g hg
      simpa using (mem_filter.mp hg).2
    · have hflat : (out.filter (· ≠ [])).flatten = out.flatten := flatten_filter_ne_nil
      rw [hflat]
      have hempties : (List.replicate count ([] : List σ)).flatten = [] := by simp
      rw [hempties, nil_append] at hperm
      exact hperm.trans hitems
    · intro g hg h hh
      exact htracks.even_bins g (mem_of_mem_filter hg) h (mem_of_mem_filter hh)

variable (size path) in
/-- `balance` partitions the splits into at most `n` groups, evenly, and whatever order the splits
come in. -/
theorem balance_partitions (splits : List σ) (n : Int) (hn : 1 ≤ n) :
    (∃ groups, balance size path splits n = some groups ∧ (groups.length : Int) ≤ n ∧
      (∀ g ∈ groups, g ≠ []) ∧ groups.flatten.Perm splits ∧
      ∀ g ∈ groups, ∀ h ∈ groups,
        load size g ≤ load size h + (splits.map size).foldr max 0) ∧
    (∀ others : List σ,
      (splits.map (splitKey size path)).Perm (others.map (splitKey size path)) →
      (balance size path splits n).map (List.map (List.map (splitKey size path))) =
        (balance size path others n).map (List.map (List.map (splitKey size path)))) ∧
    ((splits.map path).Nodup → ∀ others : List σ, splits.Perm others →
      balance size path splits n = balance size path others n) := by
  refine ⟨balance_groups splits hn, ?_, ?_⟩
  · intro others hperm
    rw [balance_map, balance_map]
    exact balance_perm n hperm fun a _ b _ h => h
  · intro hpaths others hperm
    apply balance_perm n hperm
    intro a ha b hb hkey
    exact inj_on_of_nodup_map hpaths ha hb (congrArg Prod.snd hkey)

theorem balance_partitions_three : (1 : Int) ≤ 2 ∧
    ∃ groups, balance Prod.fst Prod.snd [(4, ['a']), (0, ['c']), (3, ['b'])] 2 = some groups ∧
      groups.flatten.Perm [(4, ['a']), (0, ['c']), (3, ['b'])] := by
  obtain ⟨groups, hgroups, -, -, hperm, -⟩ := (balance_partitions Prod.fst Prod.snd
    [(4, ['a']), (0, ['c']), (3, ['b'])] 2 (by decide)).1
  exact ⟨by decide, groups, hgroups, hperm⟩

end

end DeltaSwamp.Distributed
