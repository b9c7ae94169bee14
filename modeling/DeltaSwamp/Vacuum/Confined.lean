import DeltaSwamp.Vacuum.Plan

/-!
# Confinement after decoding

`check` of `confine.rs` compares the encoded paths of two URLs; the object store
is asked for the decoded one.
-/

namespace DeltaSwamp.Vacuum

open List

/-- The log names the file at `location`, outside the table root. -/
structure OutsideRoot where
  location : Url
  root : Url
  deriving DecidableEq

/-- `check` -/
def check (root location : Url) : Except OutsideRoot Unit :=
  if isUnder root location then .ok () else .error ⟨location, root⟩

def hexDigit (c : Char) : Option Nat :=
  if '0' ≤ c ∧ c ≤ '9' then some (c.toNat - 48)
  else if 'a' ≤ c ∧ c ≤ 'f' then some (c.toNat - 87)
  else if 'A' ≤ c ∧ c ≤ 'F' then some (c.toNat - 55)
  else none

/-- The byte that two hexadecimal digits spell. -/
def hexByte (a b : Char) : Option UInt8 := do
  return UInt8.ofNat (16 * (← hexDigit a) + (← hexDigit b))

/-- `percent_decode_str` -/
def percentDecode : Text → List UInt8
  | '%' :: a :: b :: rest =>
    match hexByte a b with
    | some byte => byte :: percentDecode rest
    | none => String.utf8EncodeChar '%' ++ percentDecode (a :: b :: rest)
  | c :: rest => String.utf8EncodeChar c ++ percentDecode rest
  | [] => []

abbrev dot : UInt8 := 0x2E

abbrev slash : UInt8 := 0x2F

/-- A key with the slash that ends a directory. -/
def withSlash (key : List UInt8) : List UInt8 :=
  if [slash] <:+ key then key else key ++ [slash]

/-- The double-dot segments that a URL parser resolves. -/
def spellsParent (segment : Text) : Bool :=
  segment.map Char.toLower ∈ ["..", ".%2e", "%2e.", "%2e%2e"].map String.toList

/-- A path with its encoded slashes written as slashes. -/
def openSlashes : Text → Text
  | '%' :: a :: b :: rest =>
    if a = '2' ∧ (b = 'F' ∨ b = 'f') then '/' :: openSlashes rest
    else '%' :: openSlashes (a :: b :: rest)
  | c :: rest => c :: openSlashes rest
  | [] => []

/-- What the two characters after a `%` are not: hexadecimal digits. -/
def NoByte : Text → Prop
  | a :: b :: _ => hexByte a b = none
  | _ => True

variable {a b : Char} {byte : UInt8}

theorem percentDecode_byte (h : hexByte a b = some byte) (rest : Text) :
    percentDecode ('%' :: a :: b :: rest) = byte :: percentDecode rest := by
  simp [percentDecode, h]

variable {c : Char} {rest : Text}

theorem percentDecode_literal (h : c = '%' → NoByte rest) :
    percentDecode (c :: rest) = String.utf8EncodeChar c ++ percentDecode rest := by
  by_cases hc : c = '%'
  · subst hc
    obtain _ | ⟨a, _ | ⟨b, rest⟩⟩ := rest
    · rfl
    · rfl
    · have hnone : hexByte a b = none := h rfl
      simp [percentDecode, hnone]
  · rw [percentDecode]
    rintro a b more rfl
    exact absurd rfl hc

theorem unit_induction {P : Text → Prop} (nil : P [])
    (escape : ∀ a b rest byte, hexByte a b = some byte → P rest → P ('%' :: a :: b :: rest))
    (literal : ∀ c rest, (c = '%' → NoByte rest) → P rest → P (c :: rest)) (text : Text) :
    P text := by
  induction hlen : text.length using Nat.strong_induction_on generalizing text with
  | _ n ih =>
    subst hlen
    have hshorter : ∀ rest : Text, rest.length < text.length → P rest := fun rest h =>
      ih rest.length h rest rfl
    cases text with
    | nil => exact nil
    | cons c rest =>
      by_cases hc : c = '%' → NoByte rest
      · exact literal c rest hc (hshorter rest (by simp))
      · rw [Classical.not_imp] at hc
        obtain ⟨rfl, hbyte⟩ := hc
        obtain _ | ⟨a, _ | ⟨b, rest⟩⟩ := rest
        · exact absurd trivial hbyte
        · exact absurd trivial hbyte
        · obtain ⟨byte, hsome⟩ := Option.ne_none_iff_exists'.mp hbyte
          exact escape a b rest byte hsome (hshorter rest (by simp; omega))

theorem hexDigit_cases {n : Nat} (h : hexDigit c = some n) :
    48 ≤ c.toNat ∧ c.toNat ≤ 57 ∧ n = c.toNat - 48 ∨
      97 ≤ c.toNat ∧ c.toNat ≤ 102 ∧ n = c.toNat - 87 ∨
      65 ≤ c.toNat ∧ c.toNat ≤ 70 ∧ n = c.toNat - 55 := by
  simp only [hexDigit, Char.le_def, UInt32.le_iff_toNat_le] at h
  split_ifs at h with h₁ h₂ h₃ <;> rw [Option.some.injEq] at h <;> subst h
  · exact .inl ⟨h₁.1, h₁.2, rfl⟩
  · exact .inr (.inl ⟨h₂.1, h₂.2, rfl⟩)
  · exact .inr (.inr ⟨h₃.1, h₃.2, rfl⟩)

theorem hexByte_eq_some (h : hexByte a b = some byte) :
    ∃ high low, hexDigit a = some high ∧ hexDigit b = some low ∧
      byte.toNat = 16 * high + low := by
  simp only [hexByte, Option.bind_eq_bind, Option.bind_eq_some_iff, Option.pure_def,
    Option.some.injEq] at h
  obtain ⟨high, hhigh, low, hlow, rfl⟩ := h
  refine ⟨high, low, hhigh, hlow, ?_⟩
  have hh := hexDigit_cases hhigh
  have hl := hexDigit_cases hlow
  rw [UInt8.toNat_ofNat']
  omega

theorem hexByte_plain (h : hexByte a b = some byte) : (a ≠ '%' ∧ a ≠ '/') ∧ b ≠ '%' ∧ b ≠ '/' := by
  obtain ⟨high, low, hhigh, hlow, -⟩ := hexByte_eq_some h
  have hplain : ∀ {c : Char} {n : Nat}, hexDigit c = some n → c ≠ '%' ∧ c ≠ '/' := by
    intro c n hdigit
    constructor <;>
    · rintro rfl
      exact absurd hdigit (by simp [hexDigit])
  exact ⟨hplain hhigh, hplain hlow⟩

theorem hexByte_slash : hexByte a b = some slash ↔ a = '2' ∧ (b = 'F' ∨ b = 'f') := by
  constructor
  · intro h
    obtain ⟨high, low, hhigh, hlow, hbyte⟩ := hexByte_eq_some h
    have hh := hexDigit_cases hhigh
    have hl := hexDigit_cases hlow
    have hval : slash.toNat = 47 := rfl
    simp only [← Char.toNat_inj]
    change a.toNat = 50 ∧ (b.toNat = 70 ∨ b.toNat = 102)
    omega
  · rintro ⟨rfl, rfl | rfl⟩ <;> decide

theorem hexByte_dot : hexByte a b = some dot ↔ a = '2' ∧ (b = 'E' ∨ b = 'e') := by
  constructor
  · intro h
    obtain ⟨high, low, hhigh, hlow, hbyte⟩ := hexByte_eq_some h
    have hh := hexDigit_cases hhigh
    have hl := hexDigit_cases hlow
    have hval : dot.toNat = 46 := rfl
    simp only [← Char.toNat_inj]
    change a.toNat = 50 ∧ (b.toNat = 69 ∨ b.toNat = 101)
    omega
  · rintro ⟨rfl, rfl | rfl⟩ <;> decide

theorem utf8_ascii (hbyte : byte.toNat < 128) (h : byte ∈ String.utf8EncodeChar c) :
    c.toNat = byte.toNat := by
  have hval : c.val.toNat = c.toNat := rfl
  simp only [String.utf8EncodeChar, hval] at h
  split_ifs at h <;> simp only [mem_cons, not_mem_nil, or_false] at h
  · subst h
    rw [UInt8.toNat_ofNat']
    omega
  · obtain rfl | rfl := h <;> rw [UInt8.toNat_ofNat'] at hbyte <;> omega
  · obtain rfl | rfl | rfl := h <;> rw [UInt8.toNat_ofNat'] at hbyte <;> omega
  · obtain rfl | rfl | rfl | rfl := h <;> rw [UInt8.toNat_ofNat'] at hbyte <;> omega

theorem slash_mem_utf8 (h : slash ∈ String.utf8EncodeChar c) : c = '/' :=
  Char.toNat_inj.mp (utf8_ascii (by decide) h)

theorem utf8_ne_nil (c : Char) : String.utf8EncodeChar c ≠ [] := by
  rw [String.utf8EncodeChar]
  split_ifs <;> simp

theorem segments_ne_nil (text : Text) : segments text ≠ [] := by
  cases text with
  | nil => simp [segments]
  | cons c rest =>
    rw [segments]
    split_ifs
    · simp
    · split <;> simp

theorem segments_slash (rest : Text) : segments ('/' :: rest) = [] :: segments rest := by
  rw [segments, if_pos rfl]

theorem segments_cons (hc : c ≠ '/') (rest : Text) :
    segments (c :: rest) = (segments rest).modifyHead (c :: ·) := by
  rw [segments, if_neg hc]
  cases hparts : segments rest with
  | nil => exact absurd hparts (segments_ne_nil rest)
  | cons part parts => rfl

theorem segments_append (a b : Text) :
    segments (a ++ '/' :: b) = segments a ++ segments b := by
  induction a with
  | nil => exact segments_slash b
  | cons c a ih =>
    by_cases hc : c = '/'
    · subst hc
      rw [cons_append, segments_slash, ih, segments_slash, cons_append]
    · obtain ⟨part, parts, hparts⟩ := exists_cons_of_ne_nil (segments_ne_nil a)
      rw [cons_append, segments_cons hc, ih, segments_cons hc, hparts]
      rfl

theorem openSlashes_slash (rest : Text) (h : b = 'F' ∨ b = 'f') :
    openSlashes ('%' :: '2' :: b :: rest) = '/' :: openSlashes rest := by
  simp [openSlashes, h]

theorem openSlashes_literal (h : ∀ b more, c = '%' → rest = '2' :: b :: more → b ≠ 'F' ∧ b ≠ 'f') :
    openSlashes (c :: rest) = c :: openSlashes rest := by
  by_cases hc : c = '%'
  · subst hc
    obtain _ | ⟨a, _ | ⟨b, rest⟩⟩ := rest
    · rfl
    · rfl
    · rw [openSlashes, if_neg]
      rintro ⟨rfl, hb⟩
      have hne := h b rest rfl rfl
      exact hb.elim hne.1 hne.2
  · rw [openSlashes]
    rintro a b more rfl
    exact absurd rfl hc

theorem openSlashes_noByte (h : c = '%' → NoByte rest) :
    openSlashes (c :: rest) = c :: openSlashes rest := by
  refine openSlashes_literal fun b more hc hrest => ?_
  have hnone : NoByte rest := h hc
  rw [hrest, NoByte] at hnone
  constructor <;>
  · rintro rfl
    exact absurd hnone (by decide)

theorem openSlashes_byte (hbyte : hexByte a b = some byte) (hslash : byte ≠ slash) (rest : Text) :
    openSlashes ('%' :: a :: b :: rest) = '%' :: a :: b :: openSlashes rest := by
  obtain ⟨⟨ha, -⟩, hb, -⟩ := hexByte_plain hbyte
  rw [openSlashes_literal, openSlashes_literal fun _ _ h => absurd h ha,
    openSlashes_literal fun _ _ h => absurd h hb]
  intro c more _ hrest
  rw [List.cons.injEq, List.cons.injEq] at hrest
  obtain ⟨rfl, rfl, -⟩ := hrest
  have hnot := mt hexByte_slash.mpr (by rw [hbyte]; simpa using hslash)
  tauto

variable {text : Text}

theorem segments_head {x : Char} {more : Text} {parts : List Text} (hx : x ≠ '%')
    (h : segments (openSlashes text) = (x :: more) :: parts) :
    ∃ rest, text = x :: rest ∧ segments (openSlashes rest) = more :: parts := by
  cases text with
  | nil => simp [openSlashes, segments] at h
  | cons c rest =>
    by_cases hslash : ∃ b more, c = '%' ∧ rest = '2' :: b :: more ∧ (b = 'F' ∨ b = 'f')
    · obtain ⟨b, more, rfl, rfl, hb⟩ := hslash
      rw [openSlashes_slash _ hb, segments_slash] at h
      simp at h
    · rw [openSlashes_literal] at h
      · by_cases hc : c = '/'
        · rw [hc, segments_slash] at h
          simp at h
        · obtain ⟨part, others, hparts⟩ :=
            exists_cons_of_ne_nil (segments_ne_nil (openSlashes rest))
          rw [segments_cons hc, hparts, modifyHead_cons, List.cons.injEq,
            List.cons.injEq] at h
          obtain ⟨⟨rfl, rfl⟩, rfl⟩ := h
          exact ⟨rest, rfl, hparts⟩
      · intro b more hc hrest
        by_contra hb
        rw [not_and_or, not_not, not_not] at hb
        exact hslash ⟨b, more, hc, hrest, hb⟩

theorem noByte_head {part : Text} {parts : List Text} (h : NoByte text)
    (hparts : segments (openSlashes text) = part :: parts) : NoByte part := by
  obtain _ | ⟨a, _ | ⟨b, rest⟩⟩ := part
  · trivial
  · trivial
  · rw [NoByte]
    by_contra hbyte
    obtain ⟨byte, hsome⟩ := Option.ne_none_iff_exists'.mp hbyte
    obtain ⟨⟨ha, -⟩, hb, -⟩ := hexByte_plain hsome
    obtain ⟨after, rfl, hafter⟩ := segments_head ha hparts
    obtain ⟨rest, rfl, -⟩ := segments_head hb hafter
    exact hbyte h

theorem splitOn_append_of_notMem (xs ys : List UInt8) (h : slash ∉ xs) :
    (xs ++ ys).splitOn slash = (ys.splitOn slash).modifyHead (xs ++ ·) := by
  induction xs with
  | nil =>
    obtain ⟨part, parts, hparts⟩ := exists_cons_of_ne_nil (splitOn_ne_nil slash ys)
    simp [hparts]
  | cons x xs ih =>
    rw [mem_cons, not_or] at h
    obtain ⟨part, parts, hparts⟩ := exists_cons_of_ne_nil (splitOn_ne_nil slash ys)
    have hx : (x == slash) = false := by simpa using Ne.symm h.1
    rw [cons_append, splitOn_cons_eq_if_modifyHead, hx, ih h.2, hparts]
    rfl

/-- The segments of the decoded path are the decoded pieces between slashes of either kind. -/
theorem percentDecode_segments (text : Text) :
    (percentDecode text).splitOn slash = (segments (openSlashes text)).map percentDecode := by
  induction text using unit_induction with
  | nil => rfl
  | escape a b rest byte hbyte ih =>
    rw [percentDecode_byte hbyte]
    by_cases hslash : byte = slash
    · subst hslash
      obtain ⟨rfl, hb⟩ := hexByte_slash.mp hbyte
      rw [openSlashes_slash rest hb, segments_slash, map_cons, ← ih,
        splitOn_cons_eq_if_modifyHead]
      rfl
    · obtain ⟨⟨-, haslash⟩, -, hbslash⟩ := hexByte_plain hbyte
      obtain ⟨part, parts, hparts⟩ :=
        exists_cons_of_ne_nil (segments_ne_nil (openSlashes rest))
      have hsplit := splitOn_append_of_notMem [byte] (percentDecode rest)
        (by simpa using Ne.symm hslash)
      rw [singleton_append] at hsplit
      rw [hsplit, ih, openSlashes_byte hbyte hslash, segments_cons (by decide),
        segments_cons haslash,
        segments_cons hbslash, hparts]
      simp [percentDecode_byte hbyte]
  | literal c rest h ih =>
    rw [percentDecode_literal h]
    have hopen := openSlashes_noByte h
    obtain ⟨part, parts, hparts⟩ :=
      exists_cons_of_ne_nil (segments_ne_nil (openSlashes rest))
    by_cases hc : c = '/'
    · subst hc
      have hutf : String.utf8EncodeChar '/' = [slash] := by decide
      rw [hutf, singleton_append, splitOn_cons_eq_if_modifyHead, hopen, segments_slash,
        map_cons, ← ih]
      rfl
    · rw [splitOn_append_of_notMem _ _ (mt slash_mem_utf8 hc), ih, hopen, segments_cons hc, hparts]
      have hliteral : percentDecode (c :: part) = String.utf8EncodeChar c ++ percentDecode part :=
        percentDecode_literal fun hpercent => noByte_head (h hpercent) hparts
      simp [hliteral]

theorem percentDecode_eq_nil (h : percentDecode text = []) : text = [] := by
  induction text using unit_induction with
  | nil => rfl
  | escape a b rest byte hbyte =>
    rw [percentDecode_byte hbyte] at h
    simp at h
  | literal c rest hc =>
    rw [percentDecode_literal hc, append_eq_nil_iff] at h
    exact absurd h.1 (utf8_ne_nil c)

theorem percentDecode_dot {tail : List UInt8} (h : percentDecode text = dot :: tail) :
    ∃ rest, percentDecode rest = tail ∧
      (text = '.' :: rest ∨ ∃ b, (b = 'E' ∨ b = 'e') ∧ text = '%' :: '2' :: b :: rest) := by
  induction text using unit_induction with
  | nil => simp [percentDecode] at h
  | escape a b rest byte hbyte =>
    rw [percentDecode_byte hbyte, List.cons.injEq] at h
    obtain ⟨rfl, htail⟩ := h
    obtain ⟨rfl, hb⟩ := hexByte_dot.mp hbyte
    exact ⟨rest, htail, .inr ⟨b, hb, rfl⟩⟩
  | literal c rest hc =>
    rw [percentDecode_literal hc] at h
    have hmem : dot ∈ String.utf8EncodeChar c := by
      obtain ⟨byte, bytes, hbytes⟩ := exists_cons_of_ne_nil (utf8_ne_nil c)
      rw [hbytes, cons_append, List.cons.injEq] at h
      simp [hbytes, h.1]
    obtain rfl : c = '.' := Char.toNat_inj.mp (utf8_ascii (by decide) hmem)
    exact ⟨rest, (List.cons.injEq .. ▸ h).2, .inl rfl⟩

theorem toLower_eq_e (h : c.toLower = 'e') : c = 'E' ∨ c = 'e' := by
  have hlower := toNat_toLower c
  rw [h] at hlower
  simp only [← Char.toNat_inj]
  change c.toNat = 69 ∨ c.toNat = 101
  change 101 = _ at hlower
  split_ifs at hlower <;> omega

theorem percentDecode_lower_dot {tail : Text}
    (h : text.map Char.toLower = '.' :: tail ∨ text.map Char.toLower = '%' :: '2' :: 'e' :: tail) :
    ∃ rest, rest.map Char.toLower = tail ∧ percentDecode text = dot :: percentDecode rest := by
  obtain h | h := h
  · obtain ⟨c, rest, rfl, hc, hrest⟩ := map_eq_cons_iff.mp h
    rw [toLower_eq_iff (by decide)] at hc
    subst hc
    exact ⟨rest, hrest, percentDecode_literal (by simp)⟩
  · obtain ⟨a, more, rfl, ha, hmore⟩ := map_eq_cons_iff.mp h
    obtain ⟨b, more, rfl, hb, hmore⟩ := map_eq_cons_iff.mp hmore
    obtain ⟨c, rest, rfl, hc, hrest⟩ := map_eq_cons_iff.mp hmore
    rw [toLower_eq_iff (by decide)] at ha hb
    subst ha hb
    exact ⟨rest, hrest, percentDecode_byte (hexByte_dot.mpr ⟨rfl, toLower_eq_e hc⟩) rest⟩

theorem spellsParent_iff {segment : Text} :
    spellsParent segment ↔ percentDecode segment = [dot, dot] := by
  constructor
  · intro h
    have hfirst : ∃ last,
        (last.map Char.toLower = ['.'] ∨ last.map Char.toLower = ['%', '2', 'e']) ∧
        percentDecode segment = dot :: percentDecode last := by
      simp only [spellsParent, map_cons, map_nil, mem_cons, not_mem_nil,
        or_false, decide_eq_true_eq] at h
      obtain h | h | h | h := h
      · obtain ⟨last, hlast, heq⟩ := percentDecode_lower_dot (.inl h)
        exact ⟨last, .inl hlast, heq⟩
      · obtain ⟨last, hlast, heq⟩ := percentDecode_lower_dot (.inl h)
        exact ⟨last, .inr hlast, heq⟩
      · obtain ⟨last, hlast, heq⟩ := percentDecode_lower_dot (.inr h)
        exact ⟨last, .inl hlast, heq⟩
      · obtain ⟨last, hlast, heq⟩ := percentDecode_lower_dot (.inr h)
        exact ⟨last, .inr hlast, heq⟩
    obtain ⟨last, hlast, heq⟩ := hfirst
    obtain ⟨rest, hrest, hsecond⟩ := percentDecode_lower_dot hlast
    rw [heq, hsecond, map_eq_nil_iff.mp hrest]
    rfl
  · intro h
    obtain ⟨rest, hrest, hfirst⟩ := percentDecode_dot h
    obtain ⟨last, hlast, hsecond⟩ := percentDecode_dot hrest
    obtain rfl := percentDecode_eq_nil hlast
    obtain rfl | ⟨b, rfl | rfl, rfl⟩ := hsecond <;>
      obtain rfl | ⟨b, rfl | rfl, rfl⟩ := hfirst <;> decide

theorem noByte_append (h : NoByte rest) (after : Text) : NoByte (rest ++ '/' :: after) := by
  have hslash : ∀ b, hexByte '/' b = none := fun b => rfl
  have hlow : ∀ a, hexByte a '/' = none := by
    intro a
    simp [hexByte, hexDigit]
  obtain _ | ⟨a, _ | ⟨b, rest⟩⟩ := rest
  · cases after with
    | nil => trivial
    | cons b after => exact hslash b
  · exact hlow a
  · exact h

theorem percentDecode_append (a b : Text) :
    percentDecode (a ++ '/' :: b) = percentDecode a ++ slash :: percentDecode b := by
  induction a using unit_induction with
  | nil => exact percentDecode_literal (by simp)
  | escape x y rest byte hbyte ih =>
    rw [cons_append, cons_append, cons_append, percentDecode_byte hbyte, ih,
      percentDecode_byte hbyte, cons_append]
  | literal c rest hc ih =>
    rw [cons_append, percentDecode_literal fun h => noByte_append (hc h) b, ih,
      percentDecode_literal hc, append_assoc]

theorem openSlashes_append (a b : Text) :
    openSlashes (a ++ '/' :: b) = openSlashes a ++ '/' :: openSlashes b := by
  induction a using unit_induction with
  | nil => exact openSlashes_noByte (by simp)
  | escape x y rest byte hbyte ih =>
    rw [cons_append, cons_append, cons_append]
    by_cases hslash : byte = slash
    · subst hslash
      obtain ⟨rfl, hy⟩ := hexByte_slash.mp hbyte
      rw [openSlashes_slash _ hy, openSlashes_slash _ hy, ih, cons_append]
    · rw [openSlashes_byte hbyte hslash, openSlashes_byte hbyte hslash, ih]
      rfl
  | literal c rest hc ih =>
    rw [cons_append, openSlashes_noByte fun h => noByte_append (hc h) b, ih,
      openSlashes_noByte hc, cons_append]

theorem openSlashes_of_notMem (h : '/' ∉ openSlashes text) : openSlashes text = text := by
  induction text using unit_induction with
  | nil => rfl
  | escape a b rest byte hbyte ih =>
    by_cases hslash : byte = slash
    · subst hslash
      obtain ⟨rfl, hb⟩ := hexByte_slash.mp hbyte
      rw [openSlashes_slash rest hb] at h
      simp at h
    · rw [openSlashes_byte hbyte hslash] at h ⊢
      rw [ih fun hmem => h (by simp [hmem])]
  | literal c rest hc ih =>
    rw [openSlashes_noByte hc] at h ⊢
    rw [ih fun hmem => h (by simp [hmem])]

theorem segments_of_notMem (h : '/' ∉ text) : segments text = [text] := by
  induction text with
  | nil => rfl
  | cons c rest ih =>
    rw [mem_cons, not_or] at h
    rw [segments_cons (Ne.symm h.1), ih h.2]
    rfl

theorem mem_pieces {piece path : Text} : piece ∈ segments (openSlashes path) ↔
    ∃ segment ∈ segments path, piece ∈ segments (openSlashes segment) := by
  induction hlen : path.length using Nat.strong_induction_on generalizing path with
  | _ n ih =>
    subst hlen
    by_cases hslash : '/' ∈ path
    · obtain ⟨a, b, rfl, ha⟩ := eq_append_cons_of_mem hslash
      rw [openSlashes_append, segments_append, segments_append, segments_of_notMem ha,
        mem_append, ih b.length (by simp; omega) rfl]
      simp
    · rw [segments_of_notMem hslash]
      simp

theorem withSlash_prefix (key rest : List UInt8) : withSlash key <+: key ++ slash :: rest := by
  rw [withSlash]
  split_ifs
  · exact prefix_append _ _
  · exact ⟨rest, by simp⟩

theorem below_of_isUnder {root location : Url} (h : isUnder root location = true) :
    withSlash (percentDecode root.path) <+: percentDecode location.path := by
  simp only [isUnder, Bool.and_eq_true, isPrefixOf_iff_prefix] at h
  obtain ⟨-, hprefix⟩ := h
  by_cases hends : ['/'].isSuffixOf root.path
  · rw [if_pos hends] at hprefix
    obtain ⟨rest, hrest⟩ := hprefix
    obtain ⟨front, hfront⟩ := isSuffixOf_iff_suffix.mp hends
    rw [← hrest, ← hfront, append_assoc, singleton_append, percentDecode_append,
      percentDecode_append, withSlash, if_pos]
    · exact ⟨percentDecode rest, by simp [percentDecode]⟩
    · exact ⟨percentDecode front, by simp [percentDecode]⟩
  · rw [if_neg hends] at hprefix
    obtain ⟨rest, hrest⟩ := hprefix
    rw [← hrest, append_assoc, singleton_append, percentDecode_append]
    exact withSlash_prefix _ _

/-- A path as a URL parser leaves it: without double-dot segments. -/
def DotsResolved (path : Text) : Prop := ∀ segment ∈ segments path, spellsParent segment = false

instance (path : Text) : Decidable (DotsResolved path) :=
  inferInstanceAs (Decidable (∀ segment ∈ segments path, spellsParent segment = false))

theorem noParent_iff {path : Text} (hdots : DotsResolved path) :
    [dot, dot] ∉ (percentDecode path).splitOn slash ↔
      ∀ segment ∈ segments path, '/' ∈ openSlashes segment →
        ∀ piece ∈ segments (openSlashes segment), spellsParent piece = false := by
  rw [percentDecode_segments, mem_map]
  constructor
  · intro h segment hsegment _ piece hpiece
    rw [← Bool.not_eq_true]
    intro hparent
    exact h ⟨piece, mem_pieces.mpr ⟨segment, hsegment, hpiece⟩, spellsParent_iff.mp hparent⟩
  · rintro h ⟨piece, hpiece, hdecode⟩
    obtain ⟨segment, hsegment, hin⟩ := mem_pieces.mp hpiece
    have hparent := spellsParent_iff.mpr hdecode
    by_cases hslash : '/' ∈ openSlashes segment
    · rw [h segment hsegment hslash piece hin] at hparent
      exact Bool.false_ne_true hparent
    · rw [segments_of_notMem hslash, mem_singleton, openSlashes_of_notMem hslash] at hin
      rw [hin, hdots segment hsegment] at hparent
      exact Bool.false_ne_true hparent

/-- An accepted location's decoded path is the root's and what is below it, without a `..`
segment, exactly if no segment spells one at an encoded slash. -/
theorem accepted_confined_iff {root location : Url} (hdots : DotsResolved location.path)
    (haccepted : check root location = .ok ()) :
    (withSlash (percentDecode root.path) <+: percentDecode location.path ∧
      [dot, dot] ∉ (percentDecode location.path).splitOn slash) ↔
    ∀ segment ∈ segments location.path, '/' ∈ openSlashes segment →
      ∀ piece ∈ segments (openSlashes segment), spellsParent piece = false := by
  have hunder : isUnder root location = true := by
    rw [check] at haccepted
    split_ifs at haccepted with h
    exact h
  rw [noParent_iff hdots, and_iff_right (below_of_isUnder hunder)]

/-- The URL of a path in the bucket of these examples. -/
def bucketUrl (path : Text) : Url :=
  { scheme := "s3".toList, host := some "bucket".toList, port := none, username := [],
    path := path }

theorem accepted_confined_iff_part :
    (withSlash (percentDecode "/tables/t/".toList) <+:
        percentDecode "/tables/t/a%2Fb.parquet".toList ∧
      [dot, dot] ∉ (percentDecode "/tables/t/a%2Fb.parquet".toList).splitOn slash) ↔
    ∀ segment ∈ segments "/tables/t/a%2Fb.parquet".toList, '/' ∈ openSlashes segment →
      ∀ piece ∈ segments (openSlashes segment), spellsParent piece = false :=
  @accepted_confined_iff (bucketUrl "/tables/t/".toList)
    (bucketUrl "/tables/t/a%2Fb.parquet".toList) (by decide) (by decide)

/-- Parents behind encoded slashes are accepted. -/
theorem encoded_slashes_climb :
    ¬ ∀ root location : Url, DotsResolved location.path → check root location = .ok () →
      withSlash (percentDecode root.path) <+: percentDecode location.path ∧
        [dot, dot] ∉ (percentDecode location.path).splitOn slash := by
  intro h
  have hclimbs := (h (bucketUrl "/tables/t/".toList)
    (bucketUrl "/tables/t/a%2F..%2F..%2Fother/x.parquet".toList) (by decide) (by decide)).2
  exact hclimbs (by decide)

end DeltaSwamp.Vacuum
