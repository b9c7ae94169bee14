import DeltaSwamp.Checksum.Carry

/-!
# Counts that keep up with the state

The counts read from a true checksum follow the live files action by action,
modulo the counters' width, and what is stored from them is true again.
-/

namespace DeltaSwamp.Checksum

open Bisect

theorem wrapI64_add (a b : Int) : wrapI64 (wrapI64 a + b) = wrapI64 (a + b) := Int.bmod_add_bmod

theorem wrapI64_of_small {n : Int} (hlow : 0 ≤ n) (hhigh : n < 2 ^ 63) : wrapI64 n = n := by
  unfold wrapI64
  exact Int.bmod_eq_of_le_mul_two (by omega) (by omega)

theorem sizeOf_eq_some {file : Json} {size : Int} (h : sizeOf file = some size) :
    size = fileSize file ∧ 0 ≤ size := by
  obtain ⟨json, hjson, h⟩ := Option.bind_eq_some_iff.mp h
  obtain ⟨value, hvalue, h⟩ := Option.bind_eq_some_iff.mp h
  split_ifs at h with hnonneg
  cases h
  cases json with
  | int n =>
    simp only [Json.asI64] at hvalue
    split_ifs at hvalue
    cases hvalue
    simp only [fileSize, hjson]
    exact ⟨(Int.toNat_of_nonneg hnonneg).symm, hnonneg⟩
  | _ => simp [Json.asI64] at hvalue

section
variable {κ : Type} {st : State κ}

theorem sumOf_nonneg {g : Nat → Int} (h : ∀ size, 0 ≤ g size) : 0 ≤ st.sumOf g :=
  Finset.sum_nonneg fun k _ => h (st.size k)

theorem sumOf_le {g g' : Nat → Int} (h : ∀ size, g size ≤ g' size) : st.sumOf g ≤ st.sumOf g' :=
  Finset.sum_le_sum fun k _ => h (st.size k)

theorem numFiles_nonneg : 0 ≤ st.numFiles := sumOf_nonneg fun _ => by decide

theorem tableSize_nonneg : 0 ≤ st.tableSize := sumOf_nonneg fun size => Int.natCast_nonneg size

theorem State.Small.binCount (h : st.Small (2 ^ 63)) (bounds : List Int) (i : Nat) :
    wrapI64 (st.binCount bounds i) = st.binCount bounds i := by
  refine wrapI64_of_small (sumOf_nonneg fun size => ?_) (lt_of_le_of_lt ?_ h.files)
  · split_ifs <;> decide
  · exact sumOf_le fun size => by split_ifs <;> decide

theorem State.Small.binBytes (h : st.Small (2 ^ 63)) (bounds : List Int) (i : Nat) :
    wrapI64 (st.binBytes bounds i) = st.binBytes bounds i := by
  refine wrapI64_of_small (sumOf_nonneg fun size => ?_) (lt_of_le_of_lt ?_ h.bytes)
  · split_ifs <;> omega
  · exact sumOf_le fun size => by split_ifs <;> omega

variable [DecidableEq κ] {key : Json → κ}

variable {file : Json}

theorem sumOf_add (h : key file ∉ st.live) (g : Nat → Int) :
    (st.apply key (.add file)).sumOf g = st.sumOf g + g (fileSize file) := by
  simp only [State.sumOf, State.apply, Finset.sum_insert h, Function.update_self]
  have hrest : ∀ k ∈ st.live, g (Function.update st.size (key file) (fileSize file) k) =
      g (st.size k) := by
    intro k hk
    rw [Function.update_of_ne]
    rintro rfl
    exact h hk
  rw [Finset.sum_congr rfl hrest, add_comm]

theorem sumOf_remove (hlive : key file ∈ st.live) (hsize : fileSize file = st.size (key file))
    (g : Nat → Int) : (st.apply key (.remove file)).sumOf g = st.sumOf g - g (fileSize file) := by
  simp only [State.sumOf, State.apply, hsize]
  rw [← Finset.sum_erase_add _ _ hlive]
  omega

variable {action : Action} {sign : Int}

theorem sumOf_counted (hfits : Fits key st action)
    (hfile : fileOf action.fields = some (file, sign)) (g : Nat → Int) :
    (st.apply key action).sumOf g = st.sumOf g + sign * g (fileSize file) := by
  cases action with
  | add f =>
    cases hfile
    rw [sumOf_add hfits, one_mul]
  | remove f =>
    cases hfile
    rw [sumOf_remove hfits.1 hfits.2]
    omega
  | other kind value unknown =>
    have hadd : kind ≠ "add" := by rintro rfl; simp at unknown
    have hremove : kind ≠ "remove" := by rintro rfl; simp at unknown
    simp [fileOf, Action.fields, List.lookup_cons, hadd.symm, hremove.symm,
      beq_false_of_ne] at hfile
  | _ => cases hfile

theorem sumOf_uncounted (hfile : fileOf action.fields = none) (g : Nat → Int) :
    (st.apply key action).sumOf g = st.sumOf g := by
  cases action with
  | add f => cases hfile
  | remove f => cases hfile
  | _ => rfl

/-- The bins read so far are those of the state, up to the counters' width. -/
structure BinsTrack (h : Histogram) (st : State κ) : Prop where
  sorted : h.bounds.Pairwise (· < ·)
  first : h.bounds[0]? = some 0
  counts : ∀ i, h.counts[i]? =
    if i < h.bounds.length then some (wrapI64 (st.binCount h.bounds i)) else none
  sizes : ∀ i, h.sizes[i]? =
    if i < h.bounds.length then some (wrapI64 (st.binBytes h.bounds i)) else none

structure Tracks (c : Counts) (st : State κ) : Prop where
  files : c.files = wrapI64 st.numFiles
  bytes : c.bytes = wrapI64 st.tableSize
  histogram : ∀ h, c.histogram = some h → BinsTrack h st

variable {h : Histogram}

theorem bin_isLast (hsorted : h.bounds.Pairwise (· < ·)) (hfirst : h.bounds[0]? = some 0)
    {size : Int} (hsize : 0 ≤ size) : IsLast h.bounds size (h.bin size) := by
  have hsearch := binarySearch_isLast hsorted ⟨0, hfirst, hsize⟩
  unfold Histogram.bin
  cases hfound : binarySearch h.bounds size with
  | ok i => simpa [hfound] using hsearch
  | error i => simpa [hfound] using hsearch

theorem modify_bin {xs : List Int} {bounds : List Int} {total total' : Nat → Int} {bin : Nat}
    {change : Int}
    (hxs : ∀ i, xs[i]? = if i < bounds.length then some (wrapI64 (total i)) else none)
    (htotal : ∀ i, total' i = total i + if i = bin then change else 0) (i : Nat) :
    (xs.modify bin fun n => wrapI64 (n + change))[i]? =
      if i < bounds.length then some (wrapI64 (total' i)) else none := by
  rw [List.getElem?_modify, hxs i, htotal i]
  by_cases hi : i < bounds.length
  · by_cases hbin : bin = i
    · simp [hi, hbin, wrapI64_add]
    · simp [hi, hbin, Ne.symm hbin]
  · simp [hi]

theorem BinsTrack.count {size : Int} (ht : BinsTrack h st) (hfits : Fits key st action)
    (hfile : fileOf action.fields = some (file, sign)) (hsize : sizeOf file = some size) :
    BinsTrack (h.count sign size) (st.apply key action) := by
  obtain ⟨rfl, hnonneg⟩ := sizeOf_eq_some hsize
  have hlast := bin_isLast ht.sorted ht.first hnonneg
  have hbin : ∀ i, IsLast h.bounds (fileSize file : Int) i ↔ i = h.bin (fileSize file) :=
    fun i => ⟨fun hi => hi.unique hlast, fun hi => hi ▸ hlast⟩
  refine ⟨ht.sorted, ht.first, ?_, ?_⟩
  · refine modify_bin ht.counts fun i => ?_
    change (st.apply key action).binCount h.bounds i = st.binCount h.bounds i + _
    simp only [State.binCount, sumOf_counted hfits hfile, hbin, mul_ite, mul_one, mul_zero]
  · refine modify_bin ht.sizes fun i => ?_
    change (st.apply key action).binBytes h.bounds i = st.binBytes h.bounds i + _
    simp only [State.binBytes, sumOf_counted hfits hfile, hbin, mul_ite, mul_zero]

variable {c c' : Counts}

theorem Tracks.count (ht : Tracks c st) (hfits : Fits key st action)
    (hfile : fileOf action.fields = some (file, sign)) (hcount : c.count file sign = some c') :
    Tracks c' (st.apply key action) := by
  obtain ⟨size, hsize, h⟩ := Option.bind_eq_some_iff.mp hcount
  cases h
  have hvalue := (sizeOf_eq_some hsize).1
  refine ⟨?_, ?_, fun h' hh' => ?_⟩
  · simp only [ht.files, wrapI64_add, State.numFiles, sumOf_counted hfits hfile, mul_one]
  · simp only [ht.bytes, wrapI64_add, State.tableSize, sumOf_counted hfits hfile, hvalue]
  · obtain ⟨h, hh, rfl⟩ := Option.map_eq_some_iff.mp hh'
    exact (ht.histogram h hh).count hfits hfile hsize

theorem Tracks.uncounted (ht : Tracks c st) (hfile : fileOf action.fields = none) :
    Tracks c (st.apply key action) := by
  have hsum : ∀ g, (st.apply key action).sumOf g = st.sumOf g := sumOf_uncounted hfile
  refine ⟨?_, ?_, fun h hh => ?_⟩
  · rw [ht.files, State.numFiles, State.numFiles, hsum]
  · rw [ht.bytes, State.tableSize, State.tableSize, hsum]
  · obtain ⟨hsorted, hfirst, hcounts, hsizes⟩ := ht.histogram h hh
    refine ⟨hsorted, hfirst, fun i => ?_, fun i => ?_⟩
    · rw [hcounts, State.binCount, State.binCount, hsum]
    · rw [hsizes, State.binBytes, State.binBytes, hsum]

theorem Tracks.countActions {actions : List Action} (ht : Tracks c st)
    (hfits : AllFit key st actions)
    (hcount : countActions c (actions.map Action.fields) = some c') :
    Tracks c' (actions.foldl (State.apply key) st) := by
  induction actions generalizing c st with
  | nil =>
    cases hcount
    exact ht
  | cons action rest ih =>
    obtain ⟨hfit, hrest⟩ := hfits
    simp only [List.map_cons, Checksum.countActions] at hcount
    cases hfile : fileOf action.fields with
    | none =>
      simp only [hfile] at hcount
      exact ih (ht.uncounted hfile) hrest hcount
    | some counted =>
      obtain ⟨file, sign⟩ := counted
      simp only [hfile] at hcount
      obtain ⟨c1, hc1, hcount⟩ := Option.bind_eq_some_iff.mp hcount
      exact ih (ht.count hfit hfile hc1) hrest hcount

theorem asI64_eq_some {value : Json} {n : Int} (h : value.asI64 = some n) :
    value = .int n ∧ n < 2 ^ 63 := by
  cases value with
  | int m =>
    simp only [Json.asI64] at h
    split_ifs at h with hrange
    cases h
    exact ⟨rfl, hrange.2⟩
  | _ => simp [Json.asI64] at h

theorem mapM_asI64_ints {numbers read : List Int}
    (h : (numbers.map Json.int).mapM Json.asI64 = some read) : read = numbers := by
  induction numbers generalizing read with
  | nil =>
    cases h
    rfl
  | cons n numbers ih =>
    rw [List.map_cons, List.mapM_cons] at h
    obtain ⟨m, hm, h⟩ := Option.bind_eq_some_iff.mp h
    obtain ⟨rest, hrest, h⟩ := Option.bind_eq_some_iff.mp h
    cases h
    rw [ih hrest, Json.int.inj (asI64_eq_some hm).1]

theorem readList_ints {fields : Fields} {name : String} {numbers read : List Int}
    (hget : fields.lookup name = some (ints numbers))
    (h : readList (.obj fields) name = some read) : read = numbers := by
  simp only [readList, Json.get, hget, ints, Json.asArray, Option.bind_eq_bind,
    Option.bind_some] at h
  exact mapM_asI64_ints h

variable {crc : Fields}

theorem readHistogram_toJson {h' : Histogram}
    (hstored : crc.lookup "fileSizeHistogram" = some h.toJson)
    (hread : readHistogram crc = some (some h')) : h' = h := by
  unfold readHistogram at hread
  simp only [hstored, Histogram.toJson] at hread
  obtain ⟨bounds, hb, hread⟩ := Option.bind_eq_some_iff.mp hread
  obtain ⟨counts, hc, hread⟩ := Option.bind_eq_some_iff.mp hread
  obtain ⟨sizes, hs, hread⟩ := Option.bind_eq_some_iff.mp hread
  split_ifs at hread
  cases hread
  have hbounds : bounds = h.bounds := readList_ints rfl hb
  have hcounts : counts = h.counts := readList_ints rfl hc
  have hsizes : sizes = h.sizes := readList_ints rfl hs
  rw [hbounds, hcounts, hsizes]

theorem readHistogram_congr {crc' : Fields}
    (h : crc'.lookup "fileSizeHistogram" = crc.lookup "fileSizeHistogram") :
    readHistogram crc' = readHistogram crc := by
  simp only [readHistogram, h]

theorem readHistogram_first (hread : readHistogram crc = some (some h)) :
    h.bounds[0]? = some 0 := by
  unfold readHistogram at hread
  split at hread
  · cases hread
  · cases hread
  · obtain ⟨bounds, _, hread⟩ := Option.bind_eq_some_iff.mp hread
    obtain ⟨counts, _, hread⟩ := Option.bind_eq_some_iff.mp hread
    obtain ⟨sizes, _, hread⟩ := Option.bind_eq_some_iff.mp hread
    split_ifs at hread with hshape
    cases hread
    rw [← List.head?_eq_getElem?]
    exact hshape.1

omit [DecidableEq κ] in
theorem tracks_of_filesTrue (h : FilesTrue crc st) {files bytes : Json} {n m : Int}
    {histogram : Option Histogram} (hfiles : crc.lookup "numFiles" = some files)
    (hn : files.asI64 = some n) (hbytes : crc.lookup "tableSizeBytes" = some bytes)
    (hm : bytes.asI64 = some m) (hread : readHistogram crc = some histogram) :
    Tracks ⟨n, m, histogram⟩ st := by
  have hnum : n = st.numFiles := by
    rw [h.numFiles, (asI64_eq_some hn).1] at hfiles
    exact (Json.int.inj (Option.some.inj hfiles)).symm
  have hsize : m = st.tableSize := by
    rw [h.tableSizeBytes, (asI64_eq_some hm).1] at hbytes
    exact (Json.int.inj (Option.some.inj hbytes)).symm
  -- what is read from the checksum fits its counters
  have hsmall : st.Small (2 ^ 63) := ⟨hnum ▸ (asI64_eq_some hn).2, hsize ▸ (asI64_eq_some hm).2⟩
  refine ⟨?_, ?_, fun h' hh' => ?_⟩
  · exact hnum.trans (wrapI64_of_small numFiles_nonneg hsmall.files).symm
  · exact hsize.trans (wrapI64_of_small tableSize_nonneg hsmall.bytes).symm
  · cases hh'
    have htrue := h.histogram h' hread
    refine ⟨htrue.sorted, readHistogram_first hread, fun i => ?_, fun i => ?_⟩
    · rw [htrue.counts, hsmall.binCount]
    · rw [htrue.sizes, hsmall.binBytes]

theorem countActions_histogram {actions : List Fields} (h : countActions c actions = some c') :
    c'.histogram.isSome = c.histogram.isSome := by
  induction actions generalizing c with
  | nil =>
    cases h
    rfl
  | cons action rest ih =>
    simp only [countActions] at h
    cases hfile : fileOf action with
    | none =>
      simp only [hfile] at h
      exact ih h
    | some counted =>
      obtain ⟨file, sign⟩ := counted
      simp only [hfile] at h
      obtain ⟨c1, hc1, h⟩ := Option.bind_eq_some_iff.mp h
      obtain ⟨size, _, hc1⟩ := Option.bind_eq_some_iff.mp hc1
      cases hc1
      rw [ih h, Option.isSome_map]

theorem store_lookup (c : Counts) (crc : Fields) (vectors : Bool) (name : String)
    (hname : name ∉ ["fileSizeHistogram", "numFiles", "tableSizeBytes", "allFiles",
      "numDeletedRecordsOpt", "numDeletionVectorsOpt", "deletedRecordCountsHistogramOpt"]) :
    (c.store crc vectors).lookup name = crc.lookup name := by
  simp only [List.mem_cons, List.not_mem_nil, or_false, not_or] at hname
  obtain ⟨h1, h2, h3, h4, h5, h6, h7⟩ := hname
  unfold Counts.store
  cases vectors <;> cases c.histogram <;>
    simp [Fields.lookup_insert, Fields.lookup_remove, h1, h2, h3, h4, h5, h6, h7]

/-- The counts stay true over a commit's actions, if each file fits the state before it. -/
theorem filesTrue_countFiles {crc' : Fields} {actions : List Action} (h : FilesTrue crc st)
    (hafter : (actions.foldl (State.apply key) st).Small (2 ^ 63))
    (hfits : AllFit key st actions)
    (hcount : countFiles crc (actions.map Action.fields) = some crc') :
    FilesTrue crc' (actions.foldl (State.apply key) st) := by
  unfold countFiles at hcount
  split_ifs at hcount
  obtain ⟨files, hfiles, hcount⟩ := Option.bind_eq_some_iff.mp hcount
  obtain ⟨n, hn, hcount⟩ := Option.bind_eq_some_iff.mp hcount
  obtain ⟨bytes, hbytes, hcount⟩ := Option.bind_eq_some_iff.mp hcount
  obtain ⟨m, hm, hcount⟩ := Option.bind_eq_some_iff.mp hcount
  obtain ⟨histogram, hread, hcount⟩ := Option.bind_eq_some_iff.mp hcount
  obtain ⟨c, hc, hcount⟩ := Option.bind_eq_some_iff.mp hcount
  split_ifs at hcount
  cases hcount
  have ht := (tracks_of_filesTrue h hfiles hn hbytes hm hread).countActions hfits hc
  have hhistogram := countActions_histogram hc
  refine ⟨?_, ?_, fun h' hh' => ?_⟩
  · have hnum : c.files = (actions.foldl (State.apply key) st).numFiles :=
      ht.files.trans (wrapI64_of_small numFiles_nonneg hafter.files)
    unfold Counts.store
    cases c.histogram <;> cases vectorsChanged (actions.map Action.fields) <;>
      simp [Fields.lookup_insert, Fields.lookup_remove, hnum]
  · have hsize : c.bytes = (actions.foldl (State.apply key) st).tableSize :=
      ht.bytes.trans (wrapI64_of_small tableSize_nonneg hafter.bytes)
    unfold Counts.store
    cases c.histogram <;> cases vectorsChanged (actions.map Action.fields) <;>
      simp [Fields.lookup_insert, Fields.lookup_remove, hsize]
  · cases hch : c.histogram with
    | none =>
      have hsame : (c.store crc (vectorsChanged (actions.map Action.fields))).lookup
          "fileSizeHistogram" = crc.lookup "fileSizeHistogram" := by
        unfold Counts.store
        cases vectorsChanged (actions.map Action.fields) <;>
          simp [Fields.lookup_insert, Fields.lookup_remove, hch]
      rw [readHistogram_congr hsame, hread] at hh'
      cases hh'
      simp [hch] at hhistogram
    | some hist =>
      have hstored : (c.store crc (vectorsChanged (actions.map Action.fields))).lookup
          "fileSizeHistogram" = some hist.toJson := by
        unfold Counts.store
        cases vectorsChanged (actions.map Action.fields) <;>
          simp [Fields.lookup_insert, Fields.lookup_remove, hch]
      obtain rfl := readHistogram_toJson hstored hh'
      have hbins := ht.histogram h' hch
      refine ⟨hbins.sorted, fun i => ?_, fun i => ?_⟩
      · rw [hbins.counts, hafter.binCount]
      · rw [hbins.sizes, hafter.binBytes]

end

end DeltaSwamp.Checksum
