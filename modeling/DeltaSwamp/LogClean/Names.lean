import DeltaSwamp.Text

/-!
# Log file names

`parse` of `logclean.rs` and the file names it is meant to know. The two agree
but for the part numbers of a multi-part checkpoint, which the code narrows to
32 bits.
-/

namespace DeltaSwamp.LogClean

open List

inductive LogFile where
  | commit
  | checksum
  | checkpoint
  | checkpointPart (part parts : Nat)
  | v2Checkpoint (json : Bool)
  /-- A compacted log file covering versions up to `upTo`. -/
  | compacted (upTo : Version)
  deriving DecidableEq, Repr

def digits (text : Text) (len : Nat) : Option Nat :=
  if text.length = len ∧ text.all Text.isAsciiDigit ∧ Text.toNat text < 2 ^ 64 then
    some (Text.toNat text)
  else none

def isAsciiHexDigit (c : Char) : Bool :=
  Text.isAsciiDigit c || ('a' ≤ c && c ≤ 'f') || ('A' ≤ c && c ≤ 'F')

def isUuid (text : Text) : Bool :=
  text.length = 36 && text.zipIdx.all fun (c, i) =>
    if i ∈ [8, 13, 18, 23] then c = '-' else isAsciiHexDigit c

def splitOnce (separator : Char) : Text → Option (Text × Text)
  | [] => none
  | c :: rest =>
    if c = separator then some ([], rest)
    else (splitOnce separator rest).map fun (p, q) => (c :: p, q)

/-- `as u32` of the parsed digits. -/
def narrow (n : Nat) : Nat := n % 2 ^ 32

def parsePart (stem : Text) : Option LogFile := do
  let (part, parts) ← splitOnce '.' stem
  let part := narrow (← digits part 10)
  let parts := narrow (← digits parts 10)
  if part = 0 ∨ parts < part then none else some (.checkpointPart part parts)

/-- The kind of a name that goes on with `.checkpoint.` and `tail`. -/
def parseCheckpoint (tail : Text) : Option LogFile :=
  match tail.dropSuffix? ".json".toList with
  | some uuid => if isUuid uuid then some (.v2Checkpoint true) else none
  | none =>
    match tail.dropSuffix? ".parquet".toList with
    | some stem => if isUuid stem then some (.v2Checkpoint false) else parsePart stem
    | none => none

def parseCompacted (version : Version) (rest : Text) : Option LogFile := do
  let upTo ← digits (← (← rest.dropPrefix? ".".toList).dropSuffix? ".compacted.json".toList) 20
  if upTo < version then none else some (.compacted upTo)

/-- The kind of a name, from what follows the version's 20 digits. -/
def parseRest (version : Version) (rest : Text) : Option LogFile :=
  if rest = ".json".toList then some .commit
  else if rest = ".crc".toList then some .checksum
  else if rest = ".checkpoint.parquet".toList then some .checkpoint
  else match rest.dropPrefix? ".checkpoint.".toList with
  | some tail => parseCheckpoint tail
  | none => parseCompacted version rest

def parse (name : Text) : Option (Version × LogFile) := do
  let version ← digits (name.take 20) 20
  let kind ← parseRest version (name.drop 20)
  some (version, kind)

/-- `text` is `len` digits that spell `n`, which fits in 64 bits. -/
structure Spells (text : Text) (len n : Nat) : Prop where
  length_eq : text.length = len
  digits : ∀ c ∈ text, Text.isAsciiDigit c = true
  value : Text.toNat text = n
  fits : n < 2 ^ 64

/-- What follows the version in the name of each kind of log file. -/
inductive Ending (version : Version) : Text → LogFile → Prop where
  | commit : Ending version ".json".toList .commit
  | checksum : Ending version ".crc".toList .checksum
  | checkpoint : Ending version ".checkpoint.parquet".toList .checkpoint
  | checkpointPart {p q : Text} {part parts : Nat} : Spells p 10 part → Spells q 10 parts →
      0 < part → part ≤ parts → parts < 2 ^ 32 →
      Ending version (".checkpoint.".toList ++ (p ++ '.' :: q ++ ".parquet".toList))
        (.checkpointPart part parts)
  | v2Json {uuid : Text} : isUuid uuid = true →
      Ending version (".checkpoint.".toList ++ (uuid ++ ".json".toList)) (.v2Checkpoint true)
  | v2Parquet {uuid : Text} : isUuid uuid = true →
      Ending version (".checkpoint.".toList ++ (uuid ++ ".parquet".toList)) (.v2Checkpoint false)
  | compacted {e : Text} {upTo : Version} : Spells e 20 upTo → version ≤ upTo →
      Ending version (".".toList ++ (e ++ ".compacted.json".toList)) (.compacted upTo)

/-- `name` is exactly one of the log file forms: `version`'s 20 digits and an ending. -/
inductive LogName : Text → Version → LogFile → Prop where
  | mk {stem rest : Text} {version : Version} {kind : LogFile} :
      Spells stem 20 version → Ending version rest kind → LogName (stem ++ rest) version kind

/-- The two numbers of a name of the multi-part form fit in 32 bits. -/
def PartsFit (name : Text) : Prop :=
  ∀ stem p q part parts, name = stem ++ (".checkpoint.".toList ++ (p ++ '.' :: q ++
    ".parquet".toList)) → Spells p 10 part → Spells q 10 parts → part < 2 ^ 32 ∧ parts < 2 ^ 32

theorem digits_eq_some_iff (text : Text) (len n : Nat) :
    digits text len = some n ↔ Spells text len n := by
  unfold digits
  constructor
  · intro h
    split_ifs at h with hc
    obtain ⟨hlen, hall, hfit⟩ := hc
    cases h
    exact ⟨hlen, by simpa using hall, rfl, hfit⟩
  · rintro ⟨hlen, hall, rfl, hfit⟩
    rw [if_pos ⟨hlen, by simpa using hall, hfit⟩]

variable {text p q : Text}

theorem splitOnce_eq_some {separator : Char} (h : splitOnce separator text = some (p, q)) :
    text = p ++ separator :: q := by
  induction text generalizing p with
  | nil => simp [splitOnce] at h
  | cons c rest ih =>
    simp only [splitOnce] at h
    split_ifs at h with hc
    · cases h
      simp [hc]
    · obtain ⟨⟨p', q'⟩, hrest, heq⟩ := Option.map_eq_some_iff.mp h
      cases heq
      simp [ih hrest]

theorem splitOnce_append {separator : Char} (hp : ∀ c ∈ p, c ≠ separator) :
    splitOnce separator (p ++ separator :: q) = some (p, q) := by
  induction p with
  | nil => simp [splitOnce]
  | cons c p ih =>
    have hc := hp c mem_cons_self
    have hrest := ih fun d hd => hp d (mem_cons_of_mem c hd)
    simp [splitOnce, hc, hrest]

variable {rest : Text}

theorem dropPrefix?_some {start : Text} (h : text.dropPrefix? start = some rest) :
    text = start ++ rest := by
  obtain ⟨p, rfl, hp⟩ := List.dropPrefix?_eq_some_iff.mp h
  rw [eq_of_beq hp]

theorem dropSuffix?_some {ending : Text} (h : text.dropSuffix? ending = some rest) :
    text = rest ++ ending := by
  obtain ⟨s, rfl, hs⟩ := List.dropSuffix?_eq_some_iff.mp h
  rw [eq_of_beq hs]

@[simp] theorem dropPrefix?_append (start rest : Text) :
    (start ++ rest).dropPrefix? start = some rest :=
  List.dropPrefix?_append_of_beq rest (beq_self_eq_true start)

@[simp] theorem dropSuffix?_append (rest ending : Text) :
    (rest ++ ending).dropSuffix? ending = some rest :=
  List.dropSuffix?_eq_some_iff.mpr ⟨ending, rfl, beq_self_eq_true ending⟩

theorem dropSuffix?_json_parquet (rest : Text) :
    (rest ++ ".parquet".toList).dropSuffix? ".json".toList = none := by
  rw [Option.eq_none_iff_forall_not_mem]
  intro other h
  have heq := dropSuffix?_some h
  have hlast := congrArg List.getLast? heq
  simp at hlast

theorem Spells.ne_dot {len n : Nat} (h : Spells text len n) : ∀ c ∈ text, c ≠ '.' := by
  rintro c hc rfl
  exact absurd (h.digits '.' hc) (by decide)

variable {kind : LogFile}

theorem parsePart_eq_some {stem : Text} (h : parsePart stem = some kind) :
    ∃ p q part parts, stem = p ++ '.' :: q ∧ Spells p 10 part ∧ Spells q 10 parts ∧
      narrow part ≠ 0 ∧ narrow part ≤ narrow parts ∧
      kind = .checkpointPart (narrow part) (narrow parts) := by
  simp only [parsePart, Option.bind_eq_bind, Option.bind_eq_some_iff] at h
  obtain ⟨⟨p, q⟩, hsplit, part, hpart, parts, hparts, h⟩ := h
  split_ifs at h with hc
  obtain ⟨hzero, hle⟩ := not_or.mp hc
  exact ⟨p, q, part, parts, splitOnce_eq_some hsplit, (digits_eq_some_iff _ _ _).mp hpart,
    (digits_eq_some_iff _ _ _).mp hparts, hzero, Nat.le_of_not_lt hle, (Option.some.inj h).symm⟩

theorem narrow_of_lt {n : Nat} (h : n < 2 ^ 32) : narrow n = n := Nat.mod_eq_of_lt h

theorem parseCheckpoint_eq_some {tail : Text} (h : parseCheckpoint tail = some kind) :
    (∃ uuid, isUuid uuid = true ∧ tail = uuid ++ ".json".toList ∧ kind = .v2Checkpoint true) ∨
    (∃ uuid, isUuid uuid = true ∧ tail = uuid ++ ".parquet".toList ∧
      kind = .v2Checkpoint false) ∨
    ∃ stem, tail = stem ++ ".parquet".toList ∧ parsePart stem = some kind := by
  unfold parseCheckpoint at h
  cases hjson : tail.dropSuffix? ".json".toList with
  | some uuid =>
    simp only [hjson] at h
    split_ifs at h with hu
    exact .inl ⟨uuid, hu, dropSuffix?_some hjson, (Option.some.inj h).symm⟩
  | none =>
    simp only [hjson] at h
    cases hparquet : tail.dropSuffix? ".parquet".toList with
    | none => simp only [hparquet, reduceCtorEq] at h
    | some stem =>
      simp only [hparquet] at h
      split_ifs at h with hu
      · exact .inr (.inl ⟨stem, hu, dropSuffix?_some hparquet, (Option.some.inj h).symm⟩)
      · exact .inr (.inr ⟨stem, dropSuffix?_some hparquet, h⟩)

variable {version : Version}

theorem parseCompacted_eq_some (h : parseCompacted version rest = some kind) :
    Ending version rest kind := by
  simp only [parseCompacted, Option.bind_eq_bind, Option.bind_eq_some_iff] at h
  obtain ⟨tail, htail, inner, hinner, upTo, hdigits, h⟩ := h
  split_ifs at h with hle
  cases h
  rw [dropPrefix?_some htail, dropSuffix?_some hinner]
  exact .compacted ((digits_eq_some_iff _ _ _).mp hdigits) (Nat.le_of_not_lt hle)

/-- A name that is read is a log name of that kind. -/
theorem parse_sound {name : Text} (hfit : PartsFit name) (h : parse name = some (version, kind)) :
    LogName name version kind := by
  simp only [parse, Option.bind_eq_bind, Option.bind_eq_some_iff] at h
  obtain ⟨v, hv, k, hk, heq⟩ := h
  cases heq
  have hstem := (digits_eq_some_iff _ _ _).mp hv
  rw [← take_append_drop 20 name]
  refine .mk hstem ?_
  generalize hrest : name.drop 20 = rest at hk ⊢
  unfold parseRest at hk
  split_ifs at hk with hcommit hchecksum hcheckpoint
  · cases hk; exact hcommit ▸ .commit
  · cases hk; exact hchecksum ▸ .checksum
  · cases hk; exact hcheckpoint ▸ .checkpoint
  · cases htail : rest.dropPrefix? ".checkpoint.".toList with
    | none =>
      simp only [htail] at hk
      exact parseCompacted_eq_some hk
    | some tail =>
      simp only [htail] at hk
      rw [dropPrefix?_some htail]
      obtain ⟨uuid, hu, rfl, rfl⟩ | ⟨uuid, hu, rfl, rfl⟩ | ⟨stem, rfl, hpart⟩ :=
        parseCheckpoint_eq_some hk
      · exact .v2Json hu
      · exact .v2Parquet hu
      · obtain ⟨p, q, part, parts, rfl, hp, hq, hzero, hle, rfl⟩ := parsePart_eq_some hpart
        have hname : name = name.take 20 ++ (".checkpoint.".toList ++ (p ++ '.' :: q ++
            ".parquet".toList)) := by
          rw [← dropPrefix?_some htail, ← hrest, take_append_drop]
        obtain ⟨hpart, hparts⟩ := hfit _ p q part parts hname hp hq
        rw [narrow_of_lt hpart] at hzero hle ⊢
        rw [narrow_of_lt hparts] at hle ⊢
        exact .checkpointPart hp hq (Nat.pos_of_ne_zero hzero) hle hparts

theorem parsePart_eq {part parts : Nat} (hp : Spells p 10 part) (hq : Spells q 10 parts)
    (hpos : 0 < part) (hle : part ≤ parts) (hfit : parts < 2 ^ 32) :
    parsePart (p ++ '.' :: q) = some (.checkpointPart part parts) := by
  have hpart : narrow part = part := narrow_of_lt (Nat.lt_of_le_of_lt hle hfit)
  have hnot : ¬ (part = 0 ∨ parts < part) := by omega
  simp [parsePart, splitOnce_append hp.ne_dot, (digits_eq_some_iff _ _ _).mpr hp,
    (digits_eq_some_iff _ _ _).mpr hq, hpart, narrow_of_lt hfit, hnot]

theorem isUuid_parts {part parts : Nat} (hp : Spells p 10 part) (hq : Spells q 10 parts) :
    isUuid (p ++ '.' :: q) = false := by
  simp [isUuid, hp.length_eq, hq.length_eq]

theorem parseRest_checkpoint (version : Version) (tail : Text) (hne : tail ≠ "parquet".toList) :
    parseRest version (".checkpoint.".toList ++ tail) = parseCheckpoint tail := by
  unfold parseRest
  rw [if_neg (by simp), if_neg (by simp), if_neg (by simpa using hne), dropPrefix?_append]

theorem parseRest_compacted {upTo : Version} {e : Text} (he : Spells e 20 upTo)
    (hle : version ≤ upTo) :
    parseRest version (".".toList ++ (e ++ ".compacted.json".toList)) =
      some (.compacted upTo) := by
  have hlen := he.length_eq
  obtain _ | ⟨c, e'⟩ := e
  · simp at hlen
  have hdigit := he.digits c mem_cons_self
  have hc : c ≠ 'c' := by
    rintro rfl
    exact absurd hdigit (by decide)
  have hnone : (".".toList ++ (c :: e' ++ ".compacted.json".toList)).dropPrefix?
      ".checkpoint.".toList = none := by
    rw [Option.eq_none_iff_forall_not_mem]
    intro rest h
    have heq := dropPrefix?_some h
    simp [hc] at heq
  have hcompacted : parseCompacted version (".".toList ++ (c :: e' ++ ".compacted.json".toList)) =
      some (.compacted upTo) := by
    unfold parseCompacted
    simp only [Option.bind_eq_bind, dropPrefix?_append, Option.bind_some, dropSuffix?_append,
      (digits_eq_some_iff _ _ _).mpr he, if_neg (Nat.not_lt.mpr hle)]
  have hlong : 36 ≤ (".".toList ++ (c :: e' ++ ".compacted.json".toList)).length := by
    simp only [length_append, hlen]
    decide
  unfold parseRest
  rw [if_neg (fun h => by rw [h] at hlong; exact absurd hlong (by decide)),
    if_neg (fun h => by rw [h] at hlong; exact absurd hlong (by decide)),
    if_neg (fun h => by rw [h] at hlong; exact absurd hlong (by decide)), hnone]
  exact hcompacted

theorem parseRest_ending (h : Ending version rest kind) : parseRest version rest = some kind := by
  cases h with
  | commit => rfl
  | checksum => rfl
  | checkpoint => rfl
  | checkpointPart hp hq hpos hle hfit =>
    rw [parseRest_checkpoint _ _ (by
      intro h
      have hlen := congrArg List.length h
      simp [hp.length_eq] at hlen
      omega)]
    simp only [parseCheckpoint, dropSuffix?_json_parquet, dropSuffix?_append,
      isUuid_parts hp hq, parsePart_eq hp hq hpos hle hfit, Bool.false_eq_true, if_false]
  | v2Json hu =>
    rw [parseRest_checkpoint _ _ (by intro h; simpa using congrArg List.getLast? h)]
    simp only [parseCheckpoint, dropSuffix?_append, hu, if_true]
  | v2Parquet hu =>
    rw [parseRest_checkpoint _ _ (by
      intro h
      have hlen : ∀ uuid, isUuid uuid = true → uuid.length = 36 := by simp +contextual [isUuid]
      simpa [hlen _ hu] using congrArg List.length h)]
    simp only [parseCheckpoint, dropSuffix?_json_parquet, dropSuffix?_append, hu, if_true]
  | compacted he hle => exact parseRest_compacted he hle

theorem parse_complete {name : Text} (h : LogName name version kind) :
    parse name = some (version, kind) := by
  obtain ⟨hstem, hrest⟩ := h
  rename_i stem rest
  have htake : (stem ++ rest).take 20 = stem := take_left' hstem.length_eq
  have hdrop : (stem ++ rest).drop 20 = rest := drop_left' hstem.length_eq
  simp only [parse, htake, hdrop, (digits_eq_some_iff _ _ _).mpr hstem, parseRest_ending hrest,
    Option.bind_eq_bind, Option.bind_some]

end DeltaSwamp.LogClean
