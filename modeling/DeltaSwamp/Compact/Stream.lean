import DeltaSwamp.Compact.Plan

/-!
# A compaction as its batches arrive

`_compacted_batches` batch by batch: what it holds, when it cuts files, and the order of a Z-order
or a sort. A bin's files hold its rows, each once, and the rows held stay below the memory bound.
-/

namespace DeltaSwamp.Compact

open Table List

/-- What the sizes of the files depend on. -/
structure Shape (ρ : Type) where
  nbytes : List ρ → Nat
  /-- `int(a / b)`, divided in floating point. -/
  quotient : Nat → Nat → Nat

/-- `-(-a // b)`. -/
def ceilDiv (a b : Nat) : Nat := (a + b - 1) / b

section
variable {ρ : Type} (shape : Shape ρ) (target : Nat)

def Bin.rowsPerFile (bin : Bin) (seen : Nat) : Nat :=
  let rows := max 1 ((bin.expectedRows.map Int.toNat).getD seen)
  let raw := max 1 (shape.quotient (rows * target) (max 1 bin.sizes.sum))
  let count := max 1 (ceilDiv rows raw)
  max 1 (ceilDiv rows count)

def Bin.splits (bin : Bin) : Bool :=
  bin.expectedRows.any fun rows => (bin.rowsPerFile shape target rows.toNat : Int) < rows

/-- `_SIZE_SAMPLE_ROWS`. -/
def sizeSampleRows : Nat := 256 * 1024

/-- Slices of `size` rows, the last perhaps shorter. -/
def slices (size : Nat) (rows : List ρ) : List (List ρ) :=
  (List.range (ceilDiv rows.length size)).map fun i => (rows.drop (i * size)).take size

theorem flatten_firstSlices (size : Nat) (rows : List ρ) (n : Nat) :
    ((List.range n).map fun i => (rows.drop (i * size)).take size).flatten =
      rows.take (n * size) := by
  induction n with
  | zero => simp
  | succ n ih =>
    rw [range_succ, map_append, flatten_append, ih, Nat.succ_mul, take_add]
    simp

theorem slices_flatten {size : Nat} (hsize : 0 < size) (rows : List ρ) :
    (slices size rows).flatten = rows := by
  rw [slices, flatten_firstSlices, take_of_length_le]
  have hdiv := Nat.div_add_mod (rows.length + size - 1) size
  have hmod := Nat.mod_lt (rows.length + size - 1) hsize
  rw [ceilDiv, Nat.mul_comm]
  omega

theorem slices_ne_nil {size : Nat} (hsize : 0 < size) (rows : List ρ) :
    ∀ out ∈ slices size rows, out ≠ [] := by
  intro out hout
  obtain ⟨i, hi, rfl⟩ := mem_map.mp hout
  have hlt : i * size < rows.length := by
    have hi := mem_range.mp hi
    have hdiv := Nat.div_mul_le_self (rows.length + size - 1) size
    have hstep : (i + 1) * size ≤ ceilDiv rows.length size * size :=
      Nat.mul_le_mul_right size hi
    rw [ceilDiv, Nat.succ_mul] at hstep
    have hle := hstep.trans hdiv
    omega
  have hlength : ((rows.drop (i * size)).take size).length = min size (rows.length - i * size) := by
    rw [length_take, length_drop]
  intro hnil
  rw [hnil, length_nil] at hlength
  rcases Nat.min_eq_zero_iff.mp hlength.symm with h | h
  · exact hsize.ne' h
  · exact (Nat.sub_pos_of_lt hlt).ne' h

theorem rowsPerFile_pos (bin : Bin) (seen : Nat) : 0 < bin.rowsPerFile shape target seen :=
  Nat.lt_of_lt_of_le Nat.one_pos (Nat.le_max_left 1 _)

end

namespace Streaming

/-- A record batch: its rows and its `nbytes`. -/
structure Batch (ρ : Type) where
  rows : List ρ
  nbytes : Nat

/-- A batch of the scan: each row with its file, and the `nbytes` of the data alone. -/
structure FileBatch (ρ : Type) where
  rows : List (Path × ρ)
  nbytes : Nat

section
variable {ρ : Type}

/-- `batch.drop_columns(positions)` -/
def FileBatch.data (batch : FileBatch ρ) : Batch ρ := ⟨batch.rows.map Prod.snd, batch.nbytes⟩

def rowsOf (batches : List (Batch ρ)) : List ρ := batches.flatMap Batch.rows

def bytesOf (batches : List (Batch ρ)) : Nat := (batches.map Batch.nbytes).sum

end

/-- What the stream takes from Arrow and the Parquet writer. -/
structure Arrow (ρ : Type) extends Shape ρ where
  /-- the batches of a table from a row on -/
  rest : List (Batch ρ) → Nat → List (Batch ρ)
  rest_rows : ∀ batches k, rowsOf (rest batches k) = (rowsOf batches).drop k
  rest_bytes : ∀ batches k, bytesOf (rest batches k) ≤ bytesOf batches
  /-- the bytes `pq.write_table` writes, `none` where it raises -/
  encodedSize : List ρ → Option Nat
  /-- `pc.rank` of a column's values, ties alike, NULLs last -/
  ranks : Text → List ρ → List Nat
  /-- `r * float(1 << bits) / distinct`, in floating point -/
  scaled : Nat → Nat → Nat → Nat
  /-- `pc.sort_indices` -/
  sortIndices : List Text → List ρ → List Nat
  sortIndices_perm : ∀ columns rows, (sortIndices columns rows).Perm (List.range rows.length)

section
variable {ρ : Type} (arrow : Arrow ρ)

/-- A column's ranks from 0, scaled to its share of the bits where they need more. -/
def zorderKey (bits : Nat) (ranks : List Nat) : List Nat :=
  let r := ranks.map (· - 1)
  let distinct := r.foldr max 0 + 1
  if bits < 64 ∧ 2 ^ bits < distinct then r.map fun rank => arrow.scaled rank bits distinct else r

/-- The bits of a row's keys in turn, from the highest, in 64 bits. -/
def interleave (bits : Nat) (keys : List Nat) : Nat :=
  (List.range bits).reverse.foldl (fun z bit =>
    keys.foldl (fun z r => ((z <<< 1) ||| ((r >>> bit) &&& 1)) % 2 ^ 64) z) 0

/-- `_zorder_indices` -/
def zorderIndices (columns : List Text) (rows : List ρ) : List Nat :=
  let bits := max 1 (64 / columns.length)
  let keys := columns.map fun column => zorderKey arrow bits (arrow.ranks column rows)
  let z (i : Nat) := interleave bits (keys.map fun key => key.getD i 0)
  (List.range rows.length).insertionSort fun a b => z a ≤ z b

/-- `rows.take(indices)` -/
def takeRows (rows : List ρ) (indices : List Nat) : List ρ := indices.filterMap fun i => rows[i]?

/-- `_encoded_rows_per_file` -/
def encodedRows (target : Nat) (sample : List ρ) (fallback : Nat) : Nat :=
  if sample.isEmpty then fallback
  else
    match arrow.encodedSize sample with
    | none => fallback
    | some size =>
      if size = 0 then fallback else max 1 (arrow.quotient (sample.length * target) size)

/-- What an OPTIMIZE is asked for: the target size, the memory bound and the order. -/
structure Options where
  target : Nat
  maxFileBytes : Nat
  zorderBy : List Text
  sortBy : List Text

def Options.cap (options : Options) : Nat := max 1 options.maxFileBytes

def Options.Plain (options : Options) : Prop := options.zorderBy = [] ∧ options.sortBy = []

instance (options : Options) : Decidable options.Plain :=
  inferInstanceAs (Decidable (_ ∧ _))

variable (options : Options)

/-- The rows in the order asked for. -/
def ordered (rows : List ρ) : List ρ :=
  if options.zorderBy ≠ [] then takeRows rows (zorderIndices arrow options.zorderBy rows)
  else takeRows rows (arrow.sortIndices options.sortBy rows)

/-- `files_of` at a bin's end or at the memory bound: every row, in equal slices. -/
def finalFiles (bin : Bin) (batches : List (Batch ρ)) : List (List ρ) :=
  let rows := rowsOf batches
  let perFile := bin.rowsPerFile arrow.toShape options.target rows.length
  if options.Plain then
    let count := max (max (ceilDiv rows.length perFile) (ceilDiv (bytesOf batches) options.cap)) 1
    slices (max 1 (ceilDiv rows.length count)) rows
  else
    let rows := ordered arrow options rows
    let perFile := encodedRows arrow options.target (rows.take (min perFile sizeSampleRows)) perFile
    let count := max (max (ceilDiv rows.length perFile) (ceilDiv (arrow.nbytes rows) options.cap)) 1
    slices (max 1 (ceilDiv rows.length count)) rows

/-- `files_of` before a bin's end: whole files of the size the statistics give, and the rest. -/
def wholeFiles (bin : Bin) (batches : List (Batch ρ)) : List (List ρ) × List (Batch ρ) :=
  let rows := rowsOf batches
  let perFile := bin.rowsPerFile arrow.toShape options.target rows.length
  let whole := rows.length / perFile
  if whole = 0 then ([], batches)
  else
    let out := (List.range whole).map fun i => (rows.drop (i * perFile)).take perFile
    let rest := arrow.rest batches (whole * perFile)
    (out, if (rowsOf rest).isEmpty then [] else rest)

/-- A bin and its index in the step. -/
abbrev Tag := Bin × Nat

/-- `owner`: a later bin's path takes the place of an earlier's. -/
def owner (step : List Bin) (path : Path) : Option Tag :=
  step.zipIdx.reverse.find? fun tag => path ∈ tag.1.paths

/-- What is held between inputs. -/
structure Held (ρ : Type) where
  current : Option Tag
  batches : List (Batch ρ)
  bytes : Nat

def Held.start : Held ρ := ⟨none, [], 0⟩

/-- The files of what is held, where a batch of another bin comes. -/
def Held.change (s : Held ρ) (tag : Tag) : List (List ρ) × Held ρ :=
  match s.current with
  | none => ([], s)
  | some current =>
    if tag.2 ≠ current.2 ∧ s.batches ≠ [] then
      (finalFiles arrow options current.1 s.batches, ⟨s.current, [], 0⟩)
    else ([], s)

/-- The files cut once a batch is held: at the memory bound, or as the statistics allow. -/
def Held.cut (s : Held ρ) (bin : Bin) : List (List ρ) × Held ρ :=
  if options.cap ≤ s.bytes then
    (finalFiles arrow options bin s.batches, ⟨s.current, [], 0⟩)
  else if options.Plain ∧ bin.splits arrow.toShape options.target then
    let (out, rest) := wholeFiles arrow options bin s.batches
    (out, ⟨s.current, rest, bytesOf rest⟩)
  else ([], s)

variable (step : List Bin)

/-- One turn of the loop. A path of no bin raises. -/
def Held.next (s : Held ρ) (batch : FileBatch ρ) : Option (List (List ρ) × Held ρ) :=
  match batch.rows with
  | [] => some ([], s)
  | (path, _) :: _ =>
    match owner step path with
    | none => none
    | some tag =>
      let (before, s) := s.change arrow options tag
      let joined : Held ρ := ⟨some tag, s.batches ++ [batch.data], s.bytes + batch.nbytes⟩
      let (out, s) := joined.cut arrow options tag.1
      some (before ++ out, s)

/-- The files at the end of the stream. -/
def Held.last (s : Held ρ) : List (List ρ) :=
  match s.current with
  | none => []
  | some current => if s.batches = [] then [] else finalFiles arrow options current.1 s.batches

/-- `generate`, from what is held. -/
def generate (s : Held ρ) : List (FileBatch ρ) → Option (List (List ρ))
  | [] => some (s.last arrow options)
  | batch :: rest =>
    match s.next arrow options step batch with
    | none => none
    | some (out, s) => (generate s rest).map (out ++ ·)

/-- What is held after some batches. -/
def heldAfter (s : Held ρ) : List (FileBatch ρ) → Option (Held ρ)
  | [] => some s
  | batch :: rest =>
    match s.next arrow options step batch with
    | none => none
    | some (_, s) => heldAfter s rest

end

section
variable {ρ : Type}

@[simp] theorem bytesOf_nil : bytesOf ([] : List (Batch ρ)) = 0 := rfl

theorem takeRows_range (rows : List ρ) : takeRows rows (List.range rows.length) = rows := by
  unfold takeRows
  induction rows with
  | nil => rfl
  | cons row rest ih =>
    rw [length_cons, range_succ_eq_map, filterMap_cons, filterMap_map]
    simpa using ih

theorem takeRows_perm {rows : List ρ} {indices : List Nat}
    (h : indices.Perm (List.range rows.length)) : (takeRows rows indices).Perm rows := by
  have hperm := h.filterMap fun i => rows[i]?
  have hall : (List.range rows.length).filterMap (fun i => rows[i]?) = rows := takeRows_range rows
  rw [hall] at hperm
  exact hperm

variable (arrow : Arrow ρ) (options : Options)

theorem ordered_perm (rows : List ρ) : (ordered arrow options rows).Perm rows := by
  unfold ordered
  split_ifs
  · exact takeRows_perm (perm_insertionSort _ _)
  · exact takeRows_perm (arrow.sortIndices_perm _ _)

/-- The files of some rows: each row once, in order where none is asked for, and no empty file. -/
structure Files (rows : List ρ) (files : List (List ρ)) : Prop where
  perm : files.flatten.Perm rows
  inOrder : options.Plain → files.flatten = rows
  nonempty : ∀ file ∈ files, file ≠ []

theorem files_nil : Files options ([] : List ρ) [] := ⟨.nil, fun _ => rfl, by simp⟩

theorem Files.append {options : Options} {rows rows' : List ρ} {files files' : List (List ρ)}
    (h : Files options rows files) (h' : Files options rows' files') :
    Files options (rows ++ rows') (files ++ files') where
  perm := by
    rw [flatten_append]
    exact h.perm.append h'.perm
  inOrder hplain := by rw [flatten_append, h.inOrder hplain, h'.inOrder hplain]
  nonempty file hfile := by
    cases mem_append.mp hfile with
    | inl hfile => exact h.nonempty file hfile
    | inr hfile => exact h'.nonempty file hfile

theorem finalFiles_files (bin : Bin) (batches : List (Batch ρ)) :
    Files options (rowsOf batches) (finalFiles arrow options bin batches) := by
  unfold finalFiles
  split_ifs with hplain
  · refine ⟨?_, fun _ => slices_flatten (by omega) _, slices_ne_nil (by omega) _⟩
    rw [slices_flatten (by omega)]
  · refine ⟨?_, fun h => absurd h hplain, slices_ne_nil (by omega) _⟩
    dsimp only
    rw [slices_flatten (by omega)]
    exact ordered_perm arrow options _

theorem firstSlices_ne_nil {size whole : Nat} {rows : List ρ} (hsize : 0 < size)
    (hwhole : whole * size ≤ rows.length) :
    ∀ file ∈ (List.range whole).map fun i => (rows.drop (i * size)).take size, file ≠ [] := by
  intro file hfile
  obtain ⟨i, hi, rfl⟩ := mem_map.mp hfile
  have hle : (i + 1) * size ≤ whole * size := Nat.mul_le_mul_right size (mem_range.mp hi)
  apply ne_nil_of_length_pos
  rw [Nat.succ_mul] at hle
  rw [length_take, length_drop]
  omega

theorem dropEmpty_spec (batches : List (Batch ρ)) :
    rowsOf (if (rowsOf batches).isEmpty then [] else batches) = rowsOf batches ∧
      bytesOf (if (rowsOf batches).isEmpty then [] else batches) ≤ bytesOf batches := by
  split_ifs with h
  · exact ⟨(isEmpty_iff.mp h).symm, Nat.zero_le _⟩
  · exact ⟨rfl, le_rfl⟩

theorem wholeFiles_files (bin : Bin) (batches : List (Batch ρ)) :
    ∃ taken, rowsOf batches = taken ++ rowsOf (wholeFiles arrow options bin batches).2 ∧
      Files options taken (wholeFiles arrow options bin batches).1 ∧
      bytesOf (wholeFiles arrow options bin batches).2 ≤ bytesOf batches := by
  have hpos := rowsPerFile_pos arrow.toShape options.target bin (rowsOf batches).length
  unfold wholeFiles
  dsimp only
  generalize bin.rowsPerFile arrow.toShape options.target (rowsOf batches).length = size at hpos ⊢
  by_cases hwhole : (rowsOf batches).length / size = 0
  · rw [if_pos hwhole]
    exact ⟨[], rfl, files_nil options, le_rfl⟩
  · rw [if_neg hwhole]
    have hflatten := flatten_firstSlices size (rowsOf batches) ((rowsOf batches).length / size)
    obtain ⟨hrows, hbytes⟩ :=
      dropEmpty_spec (arrow.rest batches ((rowsOf batches).length / size * size))
    refine ⟨(rowsOf batches).take ((rowsOf batches).length / size * size), ?_,
      ⟨List.Perm.of_eq hflatten, fun _ => hflatten, ?_⟩, hbytes.trans (arrow.rest_bytes _ _)⟩
    · dsimp only
      rw [hrows, arrow.rest_rows, take_append_drop]
    · exact firstSlices_ne_nil hpos (Nat.div_mul_le_self _ _)

/-- The bytes counted are those held, below the bound; before the first batch nothing is held. -/
structure Held.Kept (s : Held ρ) : Prop where
  counted : s.bytes = bytesOf s.batches
  below : s.bytes < options.cap
  idle : s.current = none → s.batches = []

theorem cap_pos (options : Options) : 0 < options.cap :=
  Nat.lt_of_lt_of_le Nat.one_pos (Nat.le_max_left 1 _)

theorem kept_empty (current : Option Tag) : Held.Kept options (⟨current, [], 0⟩ : Held ρ) :=
  ⟨rfl, cap_pos options, fun _ => rfl⟩

variable {options}

theorem cut_spec (options : Options) (tag : Tag) {batches : List (Batch ρ)} {bytes : Nat}
    (hcounted : bytes = bytesOf batches) :
    ∃ out s taken, Held.cut arrow options ⟨some tag, batches, bytes⟩ tag.1 = (out, s) ∧
      s.current = some tag ∧ s.Kept options ∧ rowsOf batches = taken ++ rowsOf s.batches ∧
      Files options taken out := by
  unfold Held.cut
  split_ifs with hcap hsplits
  · exact ⟨_, _, rowsOf batches, rfl, rfl, kept_empty options _, (append_nil _).symm,
      finalFiles_files arrow options tag.1 _⟩
  · obtain ⟨taken, hrows, hfiles, hbytes⟩ := wholeFiles_files arrow options tag.1 batches
    have hbelow := Nat.lt_of_not_le hcap
    refine ⟨_, _, taken, rfl, rfl, ⟨rfl, ?_, nofun⟩, hrows, hfiles⟩
    exact hbytes.trans_lt (hcounted ▸ hbelow)
  · exact ⟨_, _, [], rfl, rfl, ⟨hcounted, Nat.lt_of_not_le hcap, nofun⟩, rfl, files_nil options⟩

variable {batch : FileBatch ρ}

theorem next_empty (step : List Bin) (s : Held ρ) (h : batch.rows = []) :
    s.next arrow options step batch = some ([], s) := by
  rw [Held.next, h]

variable {s : Held ρ} {tag : Tag}

theorem next_same {step : List Bin} (h : s.Kept options) (hcurrent : s.current = some tag)
    (hne : batch.rows ≠ []) (howner : ∀ row ∈ batch.rows, owner step row.1 = some tag) :
    ∃ out s' taken, s.next arrow options step batch = some (out, s') ∧
      s'.current = some tag ∧ s'.Kept options ∧
      rowsOf s.batches ++ batch.rows.map Prod.snd = taken ++ rowsOf s'.batches ∧
      Files options taken out := by
  obtain ⟨row, rest, hrows⟩ := exists_cons_of_ne_nil hne
  have hfirst := howner row (by simp [hrows])
  have hchange : s.change arrow options tag = ([], s) := by
    simp [Held.change, hcurrent]
  have hcounted : s.bytes + batch.nbytes = bytesOf (s.batches ++ [batch.data]) := by
    simp [h.counted, bytesOf, FileBatch.data]
  obtain ⟨out, s', taken, hcut, hcurrent', hkept, htaken, hfiles⟩ :=
    cut_spec arrow options tag hcounted
  refine ⟨out, s', taken, ?_, hcurrent', hkept, ?_, hfiles⟩
  · rw [Held.next, hrows]
    dsimp only
    rw [hfirst]
    dsimp only
    rw [hchange, hcut, nil_append]
  · rw [← htaken]
    simp [rowsOf, FileBatch.data]

theorem change_spec (h : s.Kept options)
    (hcurrent : ∀ current, s.current = some current → current.2 ≠ tag.2) :
    ∃ first s', s.change arrow options tag = (first, s') ∧ s'.batches = [] ∧ s'.bytes = 0 ∧
      Files options (rowsOf s.batches) first := by
  unfold Held.change
  cases hs : s.current with
  | none =>
    have hidle := h.idle hs
    refine ⟨[], s, rfl, hidle, ?_, ?_⟩
    · rw [h.counted, hidle, bytesOf_nil]
    · rw [hidle]
      exact files_nil options
  | some current =>
    dsimp only
    split_ifs with hheld
    · exact ⟨_, _, rfl, rfl, rfl, finalFiles_files arrow options current.1 _⟩
    · have hempty : s.batches = [] := by
        by_contra hne
        exact hheld ⟨(hcurrent current hs).symm, hne⟩
      refine ⟨[], s, rfl, hempty, ?_, ?_⟩
      · rw [h.counted, hempty, bytesOf_nil]
      · rw [hempty]
        exact files_nil options

theorem next_other {step : List Bin} (h : s.Kept options)
    (hcurrent : ∀ current, s.current = some current → current.2 ≠ tag.2) (hne : batch.rows ≠ [])
    (howner : ∀ row ∈ batch.rows, owner step row.1 = some tag) :
    ∃ first out s' taken, s.next arrow options step batch = some (first ++ out, s') ∧
      Files options (rowsOf s.batches) first ∧ s'.current = some tag ∧ s'.Kept options ∧
      batch.rows.map Prod.snd = taken ++ rowsOf s'.batches ∧ Files options taken out := by
  obtain ⟨row, rest, hrows⟩ := exists_cons_of_ne_nil hne
  have hfirst := howner row (by simp [hrows])
  obtain ⟨first, s₁, hchange, hbatches, hbytes, hwritten⟩ := change_spec arrow h hcurrent
  have hcounted : s₁.bytes + batch.nbytes = bytesOf (s₁.batches ++ [batch.data]) := by
    simp [hbatches, hbytes, bytesOf, FileBatch.data]
  obtain ⟨out, s', taken, hcut, hcurrent', hkept, htaken, hfiles⟩ :=
    cut_spec arrow options tag hcounted
  refine ⟨first, out, s', taken, ?_, hwritten, hcurrent', hkept, ?_, hfiles⟩
  · rw [Held.next, hrows]
    dsimp only
    rw [hfirst]
    dsimp only
    rw [hchange, hcut]
  · rw [← htaken, hbatches]
    simp [rowsOf, FileBatch.data]

theorem last_files (h : s.Kept options) :
    Files options (rowsOf s.batches) (s.last arrow options) := by
  unfold Held.last
  cases hs : s.current with
  | none =>
    rw [h.idle hs]
    exact files_nil options
  | some current =>
    dsimp only
    split_ifs with hempty
    · rw [hempty]
      exact files_nil options
    · exact finalFiles_files arrow options current.1 _

/-- The batches of one bin, which follow each other. -/
abbrev BinRun (ρ : Type) := Tag × List (FileBatch ρ)

def BinRun.rows (run : BinRun ρ) : List ρ := (run.2.flatMap FileBatch.rows).map Prod.snd

/-- Every row is of a file of the bin. -/
def BinRun.Owned (step : List Bin) (run : BinRun ρ) : Prop :=
  ∀ batch ∈ run.2, ∀ row ∈ batch.rows, owner step row.1 = some run.1

/-- What the stream gives from some state: the files of what is held, then each bin's. -/
def Given (options : Options) (step : List Bin) (s : Held ρ) (runs : List (BinRun ρ)) : Prop :=
  ∃ first files,
    generate arrow options step s (runs.flatMap Prod.snd) = some (first ++ files.flatten) ∧
    Files options (rowsOf s.batches) first ∧
    List.Forall₂ (fun run out => Files options run.rows out) runs files

theorem generate_run {step : List Bin} {runs : List (BinRun ρ)}
    (hruns : ∀ s : Held ρ, s.Kept options → s.current = some tag →
      Given arrow options step s runs) (batches : List (FileBatch ρ))
    (howned : BinRun.Owned step (tag, batches)) (h : s.Kept options)
    (hcurrent : s.current = some tag) :
    ∃ mine files, generate arrow options step s (batches ++ runs.flatMap Prod.snd) =
        some (mine ++ files.flatten) ∧
      Files options (rowsOf s.batches ++ BinRun.rows (tag, batches)) mine ∧
      List.Forall₂ (fun run out => Files options run.rows out) runs files := by
  induction batches generalizing s with
  | nil =>
    obtain ⟨first, files, hgenerate, hfirst, hfiles⟩ := hruns s h hcurrent
    refine ⟨first, files, hgenerate, ?_, hfiles⟩
    simpa [BinRun.rows] using hfirst
  | cons batch rest ih =>
    have hbatch := howned batch (by simp)
    have hrest : BinRun.Owned step (tag, rest) := fun b hb => howned b (by simp [hb])
    by_cases hempty : batch.rows = []
    · obtain ⟨mine, files, hgenerate, hmine, hfiles⟩ := ih hrest h hcurrent
      refine ⟨mine, files, ?_, ?_, hfiles⟩
      · rw [cons_append, generate, next_empty arrow step s hempty]
        simp [hgenerate]
      · simpa [BinRun.rows, hempty] using hmine
    · obtain ⟨out, s', taken, hnext, hcurrent', hkept, hrows, hout⟩ :=
        next_same arrow h hcurrent hempty hbatch
      obtain ⟨mine, files, hgenerate, hmine, hfiles⟩ := ih hrest hkept hcurrent'
      refine ⟨out ++ mine, files, ?_, ?_, hfiles⟩
      · rw [cons_append, generate, hnext]
        simp [hgenerate]
      · have hjoined := hout.append hmine
        rw [← append_assoc, ← hrows, append_assoc] at hjoined
        simpa [BinRun.rows] using hjoined

/-- What is held is of none of the bins to come. -/
def Held.Apart (s : Held ρ) (runs : List (BinRun ρ)) : Prop :=
  ∀ current, s.current = some current → ∀ run ∈ runs, current.2 ≠ run.1.2

theorem given_cons {step : List Bin} {runs : List (BinRun ρ)} (htag : ∀ run ∈ runs, tag.2 ≠ run.1.2)
    (hruns : ∀ s : Held ρ, s.Kept options → s.Apart runs → Given arrow options step s runs)
    (batches : List (FileBatch ρ)) (howned : BinRun.Owned step (tag, batches)) (h : s.Kept options)
    (hapart : s.Apart ((tag, batches) :: runs)) :
    Given arrow options step s ((tag, batches) :: runs) := by
  induction batches with
  | nil =>
    have hlater : s.Apart runs := fun current hs run hrun => hapart current hs run (by simp [hrun])
    obtain ⟨first, files, hgenerate, hfirst, hfiles⟩ := hruns s h hlater
    exact ⟨first, [] :: files, hgenerate, hfirst, .cons (files_nil options) hfiles⟩
  | cons batch rest ih =>
    have hbatch := howned batch (by simp)
    have hrest : BinRun.Owned step (tag, rest) := fun b hb => howned b (by simp [hb])
    by_cases hempty : batch.rows = []
    · have hapart' : s.Apart ((tag, rest) :: runs) := by
        intro current hs run hrun
        cases mem_cons.mp hrun with
        | inl heq => exact heq ▸ hapart current hs (tag, batch :: rest) (by simp)
        | inr hrun => exact hapart current hs run (by simp [hrun])
      obtain ⟨first, files, hgenerate, hfirst, hfiles⟩ := ih hrest hapart'
      refine ⟨first, files, ?_, hfirst, ?_⟩
      · rw [flatMap_cons] at hgenerate ⊢
        rw [cons_append, generate, next_empty arrow step s hempty]
        simp [hgenerate]
      · cases hfiles with
        | cons hmine hothers =>
          refine .cons ?_ hothers
          simpa [BinRun.rows, hempty] using hmine
    · have hother : ∀ current, s.current = some current → current.2 ≠ tag.2 := fun current hs =>
        hapart current hs (tag, batch :: rest) (by simp)
      obtain ⟨first, out, s', taken, hnext, hfirst, hcurrent, hkept, hrows, hout⟩ :=
        next_other arrow h hother hempty hbatch
      have hthen : ∀ s : Held ρ, s.Kept options → s.current = some tag →
          Given arrow options step s runs := by
        intro s hs hscurrent
        apply hruns s hs
        intro current hcurrent run hrun
        rw [hscurrent] at hcurrent
        cases hcurrent
        exact htag run hrun
      obtain ⟨mine, files, hgenerate, hmine, hfiles⟩ :=
        generate_run arrow hthen rest hrest hkept hcurrent
      refine ⟨first, (out ++ mine) :: files, ?_, hfirst, .cons ?_ hfiles⟩
      · rw [flatMap_cons, cons_append, generate, hnext]
        simp [hgenerate]
      · have hjoined := hout.append hmine
        rw [← append_assoc, ← hrows] at hjoined
        simpa [BinRun.rows] using hjoined

theorem generate_runs {step : List Bin} (runs : List (BinRun ρ))
    (hnodup : (runs.map fun run => run.1.2).Nodup) (howned : ∀ run ∈ runs, BinRun.Owned step run)
    (h : s.Kept options) (hapart : s.Apart runs) : Given arrow options step s runs := by
  induction runs generalizing s with
  | nil => exact ⟨s.last arrow options, [], by simp [generate], last_files arrow h, .nil⟩
  | cons run runs ih =>
    obtain ⟨tag, batches⟩ := run
    rw [map_cons, nodup_cons] at hnodup
    have htag : ∀ run ∈ runs, tag.2 ≠ run.1.2 := by
      intro run hrun heq
      exact hnodup.1 (mem_map.mpr ⟨run, hrun, heq.symm⟩)
    apply given_cons arrow htag _ batches (howned _ (by simp)) h hapart
    intro s hs hapart
    exact ih hnodup.2 (fun run hrun => howned run (by simp [hrun])) hs hapart

/-- What a step's stream gives from its start, where its rows are of its bins. -/
theorem generate_start {step : List Bin} (runs : List (BinRun ρ))
    (hnodup : (runs.map fun run => run.1.2).Nodup) (howned : ∀ run ∈ runs, BinRun.Owned step run) :
    ∃ files, generate arrow options step .start (runs.flatMap Prod.snd) = some files.flatten ∧
      List.Forall₂ (fun run out => Files options run.rows out) runs files := by
  obtain ⟨first, files, hgenerate, hfirst, hfiles⟩ :=
    generate_runs arrow runs hnodup howned (kept_empty options none) (by simp [Held.Apart])
  have hnone : first = [] := by
    cases first with
    | nil => rfl
    | cons file rest =>
      have hempty : (file :: rest).flatten = [] := hfirst.perm.eq_nil
      exact absurd (flatten_eq_nil_iff.mp hempty file (by simp)) (hfirst.nonempty file (by simp))
  refine ⟨files, ?_, hfiles⟩
  rw [hnone, nil_append] at hgenerate
  exact hgenerate

theorem files_flatten {runs : List (BinRun ρ)} {files : List (List (List ρ))}
    (h : List.Forall₂ (fun run out => Files options run.rows out) runs files) :
    Files options (runs.flatMap BinRun.rows) files.flatten := by
  induction h with
  | nil => exact files_nil options
  | cons hrun _ ih =>
    rw [flatMap_cons, flatten_cons]
    exact hrun.append ih

theorem change_counted (h : s.Kept options) (tag : Tag) :
    (s.change arrow options tag).2.bytes = bytesOf (s.change arrow options tag).2.batches := by
  unfold Held.change
  cases s.current with
  | none => exact h.counted
  | some current =>
    dsimp only
    split_ifs
    · rfl
    · exact h.counted

theorem next_kept {step : List Bin} (h : s.Kept options)
    (howned : ∀ row ∈ batch.rows, (owner step row.1).isSome) :
    ∃ out s', s.next arrow options step batch = some (out, s') ∧ s'.Kept options := by
  cases hrows : batch.rows with
  | nil => exact ⟨[], s, next_empty arrow step s hrows, h⟩
  | cons row rest =>
    obtain ⟨tag, hfirst⟩ := Option.isSome_iff_exists.mp (howned row (by simp [hrows]))
    have hcounted : (s.change arrow options tag).2.bytes + batch.nbytes =
        bytesOf ((s.change arrow options tag).2.batches ++ [batch.data]) := by
      simp [change_counted arrow h tag, bytesOf, FileBatch.data]
    obtain ⟨out, s', -, hcut, -, hkept, -⟩ := cut_spec arrow options tag hcounted
    refine ⟨(s.change arrow options tag).1 ++ out, s', ?_, hkept⟩
    rw [Held.next, hrows]
    dsimp only
    rw [hfirst]
    dsimp only
    rw [hcut]

theorem heldAfter_kept (step : List Bin) (batches : List (FileBatch ρ)) (h : s.Kept options)
    (howned : ∀ batch ∈ batches, ∀ row ∈ batch.rows, (owner step row.1).isSome) :
    ∃ s', heldAfter arrow options step s batches = some s' ∧ s'.Kept options := by
  induction batches generalizing s with
  | nil => exact ⟨s, rfl, h⟩
  | cons batch rest ih =>
    obtain ⟨out, s', hnext, hkept⟩ := next_kept arrow h (howned batch (by simp))
    rw [heldAfter, hnext]
    exact ih hkept fun b hb => howned b (by simp [hb])

/-- A step's stream, each bin's batches together: the files of each bin hold its rows, each once
(in order where none is asked for), none is empty, and they come bin by bin. What is held after
any of the batches is below the memory bound. -/
theorem compactedBatches_conserve (arrow : Arrow ρ) (options : Options) (step : List Bin)
    (runs : List (BinRun ρ)) (hnodup : (runs.map fun run => run.1.2).Nodup)
    (howned : ∀ run ∈ runs, BinRun.Owned step run) :
    (∃ files, generate arrow options step .start (runs.flatMap Prod.snd) = some files.flatten ∧
      List.Forall₂ (fun run out => out.flatten.Perm run.rows ∧
        (options.Plain → out.flatten = run.rows) ∧ ∀ file ∈ out, file ≠ []) runs files) ∧
    ∀ before after, runs.flatMap Prod.snd = before ++ after →
      ∃ s, heldAfter arrow options step .start before = some s ∧
        bytesOf s.batches < options.cap := by
  have hstart : Held.Kept options (.start : Held ρ) := kept_empty options none
  constructor
  · obtain ⟨files, hgenerate, hfiles⟩ := generate_start arrow runs hnodup howned
    exact ⟨files, hgenerate, hfiles.imp fun run out h => ⟨h.perm, h.inOrder, h.nonempty⟩⟩
  · intro before after hsplit
    have hbefore : ∀ batch ∈ before, ∀ row ∈ batch.rows, (owner step row.1).isSome := by
      intro batch hbatch row hrow
      have hmem : batch ∈ runs.flatMap Prod.snd := by simp [hsplit, hbatch]
      obtain ⟨run, hrun, hin⟩ := mem_flatMap.mp hmem
      rw [howned run hrun batch hin row hrow]
      rfl
    obtain ⟨s, hheld, hkept⟩ := heldAfter_kept arrow step before hstart hbefore
    exact ⟨s, hheld, hkept.counted ▸ hkept.below⟩

end

/-- Rows of a number, eight bytes each. -/
def numberArrow : Arrow Nat where
  nbytes rows := 8 * rows.length
  quotient a b := a / b
  rest batches k := [⟨(rowsOf batches).drop k, bytesOf batches - 8 * k⟩]
  rest_rows batches k := by simp [rowsOf]
  rest_bytes batches k := by simp [bytesOf]
  encodedSize rows := some (8 * rows.length)
  ranks _ rows := rows.map (· + 1)
  scaled rank bits distinct := rank * 2 ^ bits / distinct
  sortIndices _ rows :=
    (List.range rows.length).insertionSort fun a b => rows.getD a 0 ≤ rows.getD b 0
  sortIndices_perm _ _ := perm_insertionSort _ _

def firstBin : Bin := ⟨[], [['a'], ['b']], [16, 16], some 4⟩

def secondBin : Bin := ⟨[], [['c']], [16], none⟩

/-- The batches of the first bin, one of them empty, then one of the second. -/
def twoRuns : List (BinRun Nat) :=
  [((firstBin, 0), [⟨[(['a'], 4), (['a'], 3)], 16⟩, ⟨[], 0⟩, ⟨[(['b'], 2), (['b'], 1)], 16⟩]),
    ((secondBin, 1), [⟨[(['c'], 9), (['c'], 8)], 16⟩])]

theorem compactedBatches_conserve_two :
    (∃ files, generate numberArrow ⟨24, 1000, [], []⟩ [firstBin, secondBin] .start
        (twoRuns.flatMap Prod.snd) = some files.flatten ∧
      List.Forall₂ (fun run out => out.flatten.Perm (BinRun.rows run) ∧
        ((⟨24, 1000, [], []⟩ : Options).Plain → out.flatten = BinRun.rows run) ∧
        ∀ file ∈ out, file ≠ []) twoRuns files) ∧
    ∀ before after, twoRuns.flatMap Prod.snd = before ++ after →
      ∃ s, heldAfter numberArrow ⟨24, 1000, [], []⟩ [firstBin, secondBin] .start before = some s ∧
        bytesOf s.batches < 1000 :=
  compactedBatches_conserve numberArrow ⟨24, 1000, [], []⟩ [firstBin, secondBin] twoRuns
    (by decide) (by unfold BinRun.Owned; decide)

end Streaming

end DeltaSwamp.Compact
