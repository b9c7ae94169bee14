import DeltaSwamp.TypeText.Scalar

/-!
# Members of a struct

How backquotes are stripped, and the texts near a struct's member: one is read as the
member's name only where the name is plain and stands whole.
-/

namespace DeltaSwamp.TypeText

open Storage (isSpace strip)
open Bracketed (Near)

theorem stripTicks_parts (text : Text) :
    ∃ before after, text = before ++ stripTicks text ++ after ∧ (∀ c ∈ before, c = '`') ∧
      (∀ c ∈ (stripTicks text).head?, c ≠ '`') ∧ ∀ c ∈ (stripTicks text).getLast?, c ≠ '`' := by
  set body := text.dropWhile (· = '`') with hbody
  have hbodyEnd : body = stripTicks text ++ (body.reverse.takeWhile (· = '`')).reverse := by
    rw [stripTicks, ← hbody, ← List.reverse_append, List.takeWhile_append_dropWhile,
      List.reverse_reverse]
  refine ⟨text.takeWhile (· = '`'), (body.reverse.takeWhile (· = '`')).reverse, ?_, ?_, ?_, ?_⟩
  · rw [List.append_assoc, ← hbodyEnd, hbody, List.takeWhile_append_dropWhile]
  · intro c hc
    simpa using List.mem_takeWhile_imp hc
  · intro c hc
    have hhead : body.head? = some c := by
      rw [hbodyEnd, List.head?_append, Option.mem_def.mp hc]
      rfl
    have hnot := List.head?_dropWhile_not (· = '`') text
    rw [← hbody, hhead] at hnot
    simpa using hnot
  · intro c hc
    rw [Option.mem_def, stripTicks, ← hbody, List.getLast?_reverse] at hc
    have hnot := List.head?_dropWhile_not (· = '`') body.reverse
    rw [hc] at hnot
    simpa using hnot

variable {name text : Text}

/-- A name is what its doubled text, or some of it, is stripped to only where it holds no
backquote and nothing is missing. -/
theorem stripTicks_starts (hnamed : name ≠ []) (hstart : text <+: Doubled.double '`' name)
    (h : stripTicks ('`' :: text) = name) : '`' ∉ name ∧ text = name := by
  have hopen : stripTicks ('`' :: text) = stripTicks text := rfl
  rw [hopen] at h
  obtain ⟨before, after, hsplit, hbefore, hfirst, hlast⟩ := stripTicks_parts text
  rw [h] at hsplit hfirst hlast
  obtain ⟨d, name', rfl⟩ := List.exists_cons_of_ne_nil hnamed
  have hd : d ≠ '`' := hfirst d rfl
  have hnone : before = [] := by
    cases before with
    | nil => rfl
    | cons b before =>
      rw [hsplit, Doubled.double_other hd, List.cons_append, List.cons_append,
        List.cons_prefix_cons] at hstart
      exact absurd (hstart.1 ▸ hbefore b (by simp)) hd
  rw [hnone, List.nil_append] at hsplit
  have hname : d :: name' <+: text := ⟨after, hsplit.symm⟩
  have hplain : '`' ∉ d :: name' := by
    intro hmem
    exact hlast '`' (Doubled.last_of_prefix (hname.trans hstart) hmem) rfl
  rw [Doubled.double_plain hplain] at hstart
  exact ⟨hplain, hstart.eq_of_length (Nat.le_antisymm hstart.length_le hname.length_le)⟩

theorem tick_solid : Solid ['`'] := ⟨⟨'`', rfl, by decide⟩, '`', rfl, by decide⟩

theorem quote_solid (name : Text) : Solid (quote name) :=
  ⟨⟨'`', rfl, by decide⟩, '`', List.getLast?_concat, by decide⟩

theorem stripTicks_quote (name : Text) :
    stripTicks (strip (quote name)) = stripTicks ('`' :: Doubled.double '`' name) := by
  rw [strip_solid (quote_solid name), stripTicks, stripTicks, quote, List.cons_append,
    List.dropWhile_cons_of_pos (by decide), List.dropWhile_cons_of_pos (by decide),
    List.dropWhile_append]
  split_ifs with hblank
  · rw [List.isEmpty_iff] at hblank
    rw [hblank]
    rfl
  · rw [List.reverse_append, List.reverse_singleton, List.singleton_append,
      List.dropWhile_cons_of_pos (by decide)]

variable {c : Char}

theorem mem_double {mark : Char} (h : c ∈ Doubled.double mark text) : c ∈ text := by
  unfold Doubled.double at h
  rw [List.mem_flatMap] at h
  obtain ⟨d, hd, hc⟩ := h
  split_ifs at hc <;> simp_all

theorem mem_strip (h : c ∈ strip text) : c ∈ text := by
  obtain ⟨before, after, hsplit, -⟩ := strip_parts text
  rw [hsplit]
  simp [h]

theorem mem_stripTicks (h : c ∈ stripTicks text) : c ∈ text := by
  obtain ⟨before, after, hsplit, -⟩ := stripTicks_parts text
  rw [hsplit]
  simp [h]

theorem partition_mark {sep : Char} {first : Text} (hfirst : sep ∉ first) (rest : Text) :
    partition sep (first ++ sep :: rest) = (first, some rest) := by
  have hplain : ∀ c ∈ first, (decide (c ≠ sep)) = true := by
    intro c hc
    simpa using fun heq : c = sep => hfirst (heq ▸ hc)
  rw [partition, List.dropWhile_append_of_pos hplain, List.takeWhile_append_of_pos hplain,
    List.dropWhile_cons_of_neg (by simp), List.takeWhile_cons_of_neg (by simp), List.append_nil]

theorem partition_prefix (sep : Char) (text : Text) : (partition sep text).1 <+: text := by
  unfold partition
  split
  · exact List.prefix_rfl
  · exact List.takeWhile_prefix _

variable {raw : Text}

theorem memberOf_cases {member type : Text} (h : memberOf raw member = .ok (name, type)) :
    (∃ first, member = first ++ ':' :: type ∧ ':' ∉ first ∧ stripTicks (strip first) = name) ∨
      ':' ∉ member ∧ ∃ first, first <+: member ∧ stripTicks (strip first) = name := by
  by_cases hcolon : ':' ∈ member
  · obtain ⟨first, rest, rfl, hfirst⟩ := List.eq_append_cons_of_mem hcolon
    rw [memberOf, partition_mark hfirst] at h
    dsimp only at h
    split_ifs at h
    cases h
    exact Or.inl ⟨first, rfl, hfirst, rfl⟩
  · have hnone : member.dropWhile (· ≠ ':') = [] := by
      rw [List.dropWhile_eq_nil_iff]
      intro c hc
      simpa using fun heq : c = ':' => hcolon (heq ▸ hc)
    rw [memberOf, partition, hnone] at h
    dsimp only at h
    split_ifs at h
    cases h
    exact Or.inr ⟨hcolon, _, partition_prefix ' ' member, rfl⟩

theorem rstrip_starts (text : Text) : rstrip text <+: text := by
  obtain ⟨after, hsplit, -⟩ := rstrip_parts text
  exact ⟨after, hsplit.symm⟩

theorem strip_rstrip (text : Text) : strip (rstrip text) = strip text := by
  obtain ⟨after, hsplit, hafter⟩ := rstrip_parts text
  conv_rhs => rw [hsplit]
  exact (strip_padded (List.forall_mem_nil _) hafter (rstrip text)).symm

theorem strip_space (text : Text) : strip (' ' :: text) = strip text := by
  have hspace : ∀ c ∈ [' '], isSpace c = true := by decide
  have hpad := strip_padded hspace (List.forall_mem_nil _) text
  rwa [List.append_nil] at hpad

theorem member_uncut {rest x first : Text} (hnamed : name ≠ []) (hcolon : ':' ∉ x)
    (hnear : Near atEnd (quote name ++ ':' :: rest) x) (hfirst : first <+: strip x) :
    stripTicks (strip first) ≠ name := by
  intro hname
  have hticks : ∀ text : Text, strip ('`' :: text) = '`' :: rstrip text := strip_append tick_solid
  obtain ⟨c, more, hc, heq⟩ : ∃ c more, atEnd c ∧ quote name ++ ':' :: rest = x ++ c :: more := by
    obtain rfl | hoff := hnear
    · exact absurd (by simp) hcolon
    · cases hoff with
      | short hc heq => exact ⟨_, _, hc, heq⟩
      | long hc heq => exact absurd (by simp [heq]) hcolon
  have hmark : c ≠ ':' ∧ c ≠ '`' := by obtain rfl | rfl := hc <;> decide
  obtain ⟨between, hquote⟩ : ∃ between, quote name = x ++ c :: between := by
    obtain ⟨after, rfl, hrest⟩ | ⟨between, hquote, hmore⟩ := List.append_eq_append_iff.mp heq
    · cases after with
      | nil => exact absurd (List.cons.inj hrest).1.symm hmark.1
      | cons e after =>
        rw [List.cons_append, List.cons.injEq] at hrest
        exact absurd (by simp [← hrest.1]) hcolon
    · cases between with
      | nil => exact absurd (List.cons.inj hmore).1 hmark.1
      | cons e between =>
        rw [List.cons_append, List.cons.injEq] at hmore
        exact ⟨between, hmore.1 ▸ hquote⟩
  -- Such a text ends inside the quoted name, so some of the name is missing.
  obtain ⟨text, rfl⟩ : ∃ text, x = '`' :: text := by
    cases x with
    | nil => exact absurd (List.cons.inj hquote).1.symm hmark.2
    | cons e text => exact ⟨text, by rw [(List.cons.inj hquote).1]⟩
  have hdouble : Doubled.double '`' name ++ ['`'] = text ++ c :: between := (List.cons.inj hquote).2
  obtain ⟨missing, hdouble⟩ : ∃ missing, Doubled.double '`' name = text ++ c :: missing := by
    obtain rfl | ⟨missing, d, rfl⟩ := List.eq_nil_or_concat between
    · exact absurd (List.append_inj_right' hdouble rfl) (by simpa using Ne.symm hmark.2)
    · rw [List.concat_eq_append, ← List.cons_append, ← List.append_assoc] at hdouble
      exact ⟨missing, List.append_inj_left' hdouble rfl⟩
  rw [hticks] at hfirst
  obtain rfl | ⟨d, part, rfl⟩ : first = [] ∨ ∃ d part, first = d :: part := by
    cases first with
    | nil => exact Or.inl rfl
    | cons d part => exact Or.inr ⟨d, part, rfl⟩
  · exact hnamed hname.symm
  · rw [List.cons_prefix_cons] at hfirst
    obtain ⟨rfl, hpart⟩ := hfirst
    rw [hticks] at hname
    have hread : rstrip part <+: text :=
      (rstrip_starts part).trans (hpart.trans (rstrip_starts text))
    obtain ⟨hplain, hsame⟩ := stripTicks_starts hnamed (hread.trans ⟨_, hdouble.symm⟩) hname
    rw [Doubled.double_plain hplain] at hdouble
    have hlength := hread.length_le
    rw [hsame, hdouble, List.length_append, List.length_cons] at hlength
    omega

theorem quote_colon (h : ':' ∉ name) : ':' ∉ quote name := by
  intro hmem
  rw [quote, List.cons_append, List.mem_cons, List.mem_append, List.mem_singleton] at hmem
  obtain hmem | hmem | hmem := hmem
  · cases hmem
  · exact h (mem_double hmem)
  · cases hmem

/-- A text near a member's is read with the member's name only where the name holds no colon and no
backquote and stands whole, with a text near the type's behind it. -/
theorem member_near {body x type : Text} (hnamed : name ≠ [])
    (hnear : Near atEnd (quote name ++ [':', ' '] ++ body) x)
    (h : memberOf raw (strip x) = .ok (name, type)) :
    (':' ∉ name ∧ '`' ∉ name) ∧ ∃ u, x = quote name ++ [':', ' '] ++ u ∧ strip type = strip u ∧
      Near atEnd body u := by
  have hmember : quote name ++ [':', ' '] ++ body = quote name ++ ':' :: (' ' :: body) := by simp
  rw [hmember] at hnear
  obtain ⟨first, hsplit, hfirst, hname⟩ | ⟨hcolon, first, hfirst, hname⟩ := memberOf_cases h
  · have hcolon : ':' ∉ name := by
      rw [← hname]
      exact fun hmem => hfirst (mem_strip (mem_stripTicks hmem))
    obtain ⟨before, rest, rfl, hbefore⟩ :=
      List.eq_append_cons_of_mem (mem_strip (by simp [hsplit] : ':' ∈ strip x))
    obtain ⟨rfl, hrest⟩ | hoff := hnear.append_mark
    · have hspace : ∀ c ∈ [' '], ¬ atEnd c := by simp [atEnd]
      obtain ⟨u, rfl, hu⟩ := Near.append_left hspace hrest
      have hsolid : Solid (quote name ++ [':']) := (quote_solid name).snoc (by decide)
      have hwhole : quote name ++ ':' :: ([' '] ++ u) = quote name ++ [':'] ++ ' ' :: u := by simp
      rw [hwhole, strip_append hsolid, List.append_assoc, List.singleton_append] at hsplit
      obtain ⟨rfl, rfl⟩ := Bracketed.append_mark_inj (quote_colon hcolon) hfirst hsplit
      rw [stripTicks_quote] at hname
      have hplain := (stripTicks_starts hnamed List.prefix_rfl hname).1
      exact ⟨⟨hcolon, hplain⟩, u, by simp, by rw [strip_rstrip, strip_space], hu⟩
    · obtain ⟨c, rfl, hmem | hmem⟩ := hoff.mem
      · exact absurd hmem (quote_colon hcolon)
      · exact absurd hmem hbefore
  · have hx : ':' ∉ x := by
      intro hmem
      obtain ⟨before, after, hparts, hbefore, hafter⟩ := strip_parts x
      rw [hparts, List.mem_append, List.mem_append] at hmem
      obtain (hmem | hmem) | hmem := hmem
      · exact absurd (hbefore _ hmem) (by decide)
      · exact hcolon hmem
      · exact absurd (hafter _ hmem) (by decide)
    exact absurd hname (member_uncut hnamed hx hnear hfirst)

/-- A member whose name holds no colon and no backquote is read as its name and its type's text. -/
theorem member_read {body : Text} (hnamed : name ≠ []) (hcolon : ':' ∉ name) (htick : '`' ∉ name)
    (hbody : Solid body) :
    memberOf raw (quote name ++ [':', ' '] ++ body) = .ok (name, ' ' :: body) := by
  have hmember : quote name ++ [':', ' '] ++ body = quote name ++ ':' :: (' ' :: body) := by simp
  have hname : stripTicks (strip (quote name)) = name := by
    have hkeep : ∀ text : Text, '`' ∉ text → text.dropWhile (· = '`') = text := by
      intro text hplain
      cases text with
      | nil => rfl
      | cons c text =>
        exact List.dropWhile_cons_of_neg
          (by simpa using fun heq : c = '`' => hplain (by simp [heq]))
    rw [stripTicks_quote, Doubled.double_plain htick, stripTicks,
      List.dropWhile_cons_of_pos (by decide), hkeep name htick,
      hkeep name.reverse (by simpa using htick), List.reverse_reverse]
  have htype : strip (' ' :: body) ≠ [] := by
    rw [strip_space, strip_solid hbody]
    rintro rfl
    obtain ⟨c, hc, -⟩ := hbody.first
    cases hc
  rw [memberOf, hmember, partition_mark (quote_colon hcolon)]
  dsimp only
  rw [hname, if_neg (not_or.mpr ⟨hnamed, htype⟩)]

end DeltaSwamp.TypeText
