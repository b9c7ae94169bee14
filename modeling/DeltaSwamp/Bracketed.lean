import Mathlib.Algebra.BigOperators.Group.List.Basic
import Mathlib.Algebra.Order.Ring.Int

/-!
# Splitting outside brackets

A text cut at the separators outside its brackets: where the cuts fall, when they fall
between the members a text was joined from, and how far a text that was cut short or
goes on agrees with another.
-/

namespace DeltaSwamp.Bracketed

open List

section
variable {α : Type}

/-- What opens less what closes. -/
def depth (weight : α → Int) (text : List α) : Int := (text.map weight).sum

variable {weight : α → Int}

@[simp] theorem depth_nil : depth weight [] = 0 := rfl

@[simp] theorem depth_cons (c : α) (text : List α) :
    depth weight (c :: text) = weight c + depth weight text := by
  simp [depth]

@[simp] theorem depth_append (first last : List α) :
    depth weight (first ++ last) = depth weight first + depth weight last := by
  simp [depth]

theorem depth_filter (p : α → Bool) (hp : ∀ c, p c = false → weight c = 0) (text : List α) :
    depth weight (text.filter p) = depth weight text := by
  induction text with
  | nil => rfl
  | cons c text ih =>
    cases hc : p c with
    | true => simp [hc, ih]
    | false => simp [hc, ih, hp c hc]

end

section
variable {α : Type} [DecidableEq α] (weight : α → Int) (sep : α)

/-- The parts of a text from the one that is open, with the depth reached in it. -/
def splitFrom : Int → List α → List α → List (List α)
  | _, part, [] => [part]
  | d, part, c :: rest =>
    if weight c = 0 ∧ c = sep ∧ d = 0 then part :: splitFrom d [] rest
    else splitFrom (d + weight c) (part ++ [c]) rest

def split (text : List α) : List (List α) := splitFrom weight sep 0 [] text

/-- Whether a separator of the text, entered at a depth, is outside the brackets. -/
def exposedFrom : Int → List α → Bool
  | _, [] => false
  | d, c :: rest => decide (c = sep ∧ d = 0) || exposedFrom (d + weight c) rest

def exposed (text : List α) : Bool := exposedFrom weight sep 0 text

/-- Members that stay apart when joined: no separator in one is outside its brackets, and each but
the last closes what it opens. -/
def Apart : List (List α) → Prop
  | [] => True
  | [last] => exposed weight sep last = false
  | member :: next :: more =>
    exposed weight sep member = false ∧ depth weight member = 0 ∧ Apart (next :: more)

/-- Members with a separator and a gap after each but the last. -/
def joined (gap : List α) : List (List α) → List α
  | [] => []
  | [last] => last
  | first :: next :: more => first ++ sep :: (gap ++ joined gap (next :: more))

variable {weight sep}

theorem splitFrom_part (d : Int) (part text : List α) :
    ∃ first more, splitFrom weight sep d [] text = first :: more ∧
      splitFrom weight sep d part text = (part ++ first) :: more := by
  induction text generalizing d part with
  | nil => exact ⟨[], [], rfl, by simp [splitFrom]⟩
  | cons c text ih =>
    by_cases hcut : weight c = 0 ∧ c = sep ∧ d = 0
    · exact ⟨[], splitFrom weight sep d [] text, by rw [splitFrom, if_pos hcut], by
        rw [splitFrom, if_pos hcut, append_nil]⟩
    · obtain ⟨first, more, hnil, hone⟩ := ih (d + weight c) [c]
      obtain ⟨first', more', hnil', hpart⟩ := ih (d + weight c) (part ++ [c])
      rw [hnil] at hnil'
      cases hnil'
      refine ⟨c :: first, more, ?_, ?_⟩
      · rw [splitFrom, if_neg hcut]
        exact hone
      · rw [splitFrom, if_neg hcut, hpart]
        simp

theorem splitFrom_closed {d : Int} {text : List α} (hclosed : exposedFrom weight sep d text = false)
    (part rest : List α) :
    splitFrom weight sep d part (text ++ rest) =
      splitFrom weight sep (d + depth weight text) (part ++ text) rest := by
  induction text generalizing d part with
  | nil => simp
  | cons c text ih =>
    rw [exposedFrom, Bool.or_eq_false_iff, decide_eq_false_iff_not] at hclosed
    have hcut : ¬ (weight c = 0 ∧ c = sep ∧ d = 0) := fun h => hclosed.1 h.2
    rw [cons_append, splitFrom, if_neg hcut, ih hclosed.2, depth_cons, Int.add_assoc]
    simp

theorem split_closed {text : List α} (hclosed : exposed weight sep text = false) :
    split weight sep text = [text] := by
  have h := splitFrom_closed hclosed [] []
  rw [append_nil, nil_append] at h
  rw [split, h, splitFrom]

variable (hsep : weight sep = 0)
include hsep

theorem split_sep {text : List α} (hclosed : exposed weight sep text = false)
    (hdepth : depth weight text = 0) (rest : List α) :
    split weight sep (text ++ sep :: rest) = text :: split weight sep rest := by
  rw [split, splitFrom_closed hclosed, hdepth, splitFrom, if_pos ⟨hsep, rfl, rfl⟩]
  rfl

theorem split_cases (text : List α) :
    exposed weight sep text = false ∧ split weight sep text = [text] ∨
      ∃ first rest, text = first ++ sep :: rest ∧ exposed weight sep first = false ∧
        depth weight first = 0 ∧ split weight sep text = first :: split weight sep rest := by
  have hloop : ∀ (text : List α) (d : Int), exposedFrom weight sep d text = false ∨
      ∃ first rest, text = first ++ sep :: rest ∧ exposedFrom weight sep d first = false ∧
        d + depth weight first = 0 := by
    intro text
    induction text with
    | nil => exact fun d => Or.inl rfl
    | cons c text ih =>
      intro d
      by_cases hcut : c = sep ∧ d = 0
      · exact Or.inr ⟨[], text, by rw [hcut.1]; rfl, rfl, by simpa using hcut.2⟩
      · obtain hclosed | ⟨first, rest, hsplit, hclosed, hdepth⟩ := ih (d + weight c)
        · exact Or.inl (by simp [exposedFrom, hcut, hclosed])
        · exact Or.inr ⟨c :: first, rest, by rw [hsplit]; rfl, by simp [exposedFrom, hcut, hclosed],
            by rw [depth_cons, ← Int.add_assoc]; exact hdepth⟩
  obtain hclosed | ⟨first, rest, rfl, hclosed, hdepth⟩ := hloop text 0
  · exact Or.inl ⟨hclosed, split_closed hclosed⟩
  · rw [Int.zero_add] at hdepth
    exact Or.inr ⟨first, rest, rfl, hclosed, hdepth, split_sep hsep hclosed hdepth rest⟩

omit hsep

theorem exposedFrom_filter (p : α → Bool) (hp : ∀ c, p c = false → weight c = 0 ∧ c ≠ sep) (d : Int)
    (text : List α) : exposedFrom weight sep d (text.filter p) = exposedFrom weight sep d text := by
  induction text generalizing d with
  | nil => rfl
  | cons c text ih =>
    cases hc : p c with
    | true => rw [filter_cons_of_pos hc, exposedFrom, exposedFrom, ih]
    | false =>
      obtain ⟨hweight, hne⟩ := hp c hc
      rw [filter_cons_of_neg (by simp [hc]), ih, exposedFrom, hweight, Int.add_zero]
      simp [hne]

theorem apart_filter (p : α → Bool) (hp : ∀ c, p c = false → weight c = 0 ∧ c ≠ sep)
    (members : List (List α)) :
    Apart weight sep (members.map fun member => member.filter p) ↔ Apart weight sep members := by
  have hexposed : ∀ text, exposed weight sep (text.filter p) = exposed weight sep text :=
    exposedFrom_filter p hp 0
  induction members with
  | nil => rfl
  | cons first members ih =>
    cases members with
    | nil => simp only [map_cons, map_nil, Apart, hexposed]
    | cons next more =>
      rw [map_cons, map_cons, Apart, Apart, hexposed,
        depth_filter p fun c hc => (hp c hc).1]
      exact and_congr Iff.rfl (and_congr Iff.rfl ih)

omit [DecidableEq α] in
theorem joined_filter (p : α → Bool) (hsep : p sep = true) {gap : List α} (hgap : gap.filter p = [])
    (members : List (List α)) :
    (joined sep gap members).filter p =
      joined sep [] (members.map fun member => member.filter p) := by
  induction members with
  | nil => rfl
  | cons first members ih =>
    cases members with
    | nil => rfl
    | cons next more =>
      rw [joined, filter_append, filter_cons_of_pos hsep, filter_append, hgap, ih]
      rfl

theorem pad_closed {pad : List α} (hpad : ∀ c ∈ pad, weight c = 0 ∧ c ≠ sep) (d : Int) :
    exposedFrom weight sep d pad = false ∧ depth weight pad = 0 := by
  induction pad generalizing d with
  | nil => exact ⟨rfl, rfl⟩
  | cons c pad ih =>
    obtain ⟨hweight, hne⟩ := hpad c (by simp)
    obtain ⟨hexposed, hdepth⟩ := ih (fun e he => hpad e (by simp [he])) (d + weight c)
    exact ⟨by simp [exposedFrom, hne, hexposed], by simp [hweight, hdepth]⟩

theorem split_pad {pad : List α} (hpad : ∀ c ∈ pad, weight c = 0 ∧ c ≠ sep) (text : List α) :
    ∃ first more, split weight sep text = first :: more ∧
      split weight sep (pad ++ text) = (pad ++ first) :: more := by
  obtain ⟨hexposed, hdepth⟩ := pad_closed hpad 0
  rw [split, split, splitFrom_closed hexposed, hdepth, nil_append, Int.zero_add]
  exact splitFrom_part 0 pad text

/-- A reading of the parts that does not see a padding does not see it around the text. -/
theorem map_split_padded {β : Type} (f : List α → β) {before after : List α}
    (hbefore : ∀ c ∈ before, weight c = 0 ∧ c ≠ sep) (hafter : ∀ c ∈ after, weight c = 0 ∧ c ≠ sep)
    (hfbefore : ∀ part, f (before ++ part) = f part) (hfafter : ∀ part, f (part ++ after) = f part)
    (text : List α) :
    (split weight sep (before ++ text ++ after)).map f = (split weight sep text).map f := by
  have hend : ∀ (text : List α) (d : Int) (part : List α),
      (splitFrom weight sep d part (text ++ after)).map f =
        (splitFrom weight sep d part text).map f := by
    intro text
    induction text with
    | nil =>
      intro d part
      have hpad := splitFrom_closed (pad_closed hafter d).1 part []
      rw [append_nil] at hpad
      rw [nil_append, hpad, splitFrom, splitFrom]
      simp [hfafter]
    | cons c text ih =>
      intro d part
      rw [cons_append, splitFrom, splitFrom]
      split_ifs
      · rw [map_cons, map_cons, ih]
      · exact ih _ _
  obtain ⟨first, more, hnil, hpad⟩ := split_pad hbefore text
  rw [split, hend, ← split, hpad, hnil, map_cons, map_cons, hfbefore]

end

section
variable {α : Type}

/-- A text that stops short of another at a character of a kind, or goes on past it with one. -/
inductive Off (stop : α → Prop) (full : List α) : List α → Prop
  | short {text rest : List α} {c : α} : stop c → full = text ++ c :: rest → Off stop full text
  | long {text rest : List α} {c : α} : stop c → text = full ++ c :: rest → Off stop full text

variable {stop : α → Prop} {full : List α}

theorem Off.mono {stop' : α → Prop} (himp : ∀ c, stop c → stop' c) {text : List α}
    (h : Off stop full text) : Off stop' full text := by
  cases h with
  | short hc heq => exact .short (himp _ hc) heq
  | long hc heq => exact .long (himp _ hc) heq

variable {first first' rest rest' : List α} {mark : α}

/-- Two texts that are cut at one mark have the same first part, and agree after it as far as they
did, or the first parts are off at the mark. -/
theorem append_mark_cases (h : first ++ mark :: rest = first' ++ mark :: rest') :
    (first = first' ∧ rest = rest') ∨ Off (· = mark) first first' := by
  obtain ⟨more, hfirst, hrest⟩ | ⟨more, hfirst, hrest⟩ := append_eq_append_iff.mp h
  · cases more with
    | nil =>
      rw [nil_append, List.cons.injEq] at hrest
      exact Or.inl ⟨by simpa using hfirst.symm, hrest.2⟩
    | cons c more =>
      rw [cons_append, List.cons.injEq] at hrest
      exact Or.inr (.long hrest.1.symm hfirst)
  · cases more with
    | nil =>
      rw [nil_append, List.cons.injEq] at hrest
      exact Or.inl ⟨by simpa using hfirst, hrest.2.symm⟩
    | cons c more =>
      rw [cons_append, List.cons.injEq] at hrest
      exact Or.inr (.short hrest.1.symm hfirst)

theorem Off.append_mark (h : Off stop (first ++ mark :: rest) (first' ++ mark :: rest')) :
    (first = first' ∧ Off stop rest rest') ∨ Off (· = mark) first first' := by
  cases h with
  | short hc heq =>
    rw [append_assoc, cons_append] at heq
    obtain ⟨hfirst, hrest⟩ | hoff := append_mark_cases heq
    · exact Or.inl ⟨hfirst, .short hc hrest⟩
    · exact Or.inr hoff
  | long hc heq =>
    rw [append_assoc, cons_append] at heq
    obtain ⟨hfirst, hrest⟩ | hoff := append_mark_cases heq.symm
    · exact Or.inl ⟨hfirst, .long hc hrest.symm⟩
    · exact Or.inr hoff

theorem Off.mem {text : List α} (h : Off stop full text) : ∃ c, stop c ∧ (c ∈ full ∨ c ∈ text) := by
  cases h with
  | short hc heq => exact ⟨_, hc, Or.inl (by simp [heq])⟩
  | long hc heq => exact ⟨_, hc, Or.inr (by simp [heq])⟩

theorem Off.ne {text : List α} (h : Off stop full text) : text ≠ full := by
  rintro rfl
  cases h with
  | short hc heq =>
    have hlength := congrArg List.length heq
    rw [length_append, length_cons] at hlength
    omega
  | long hc heq =>
    have hlength := congrArg List.length heq
    rw [length_append, length_cons] at hlength
    omega

theorem append_mark_inj (hfirst : mark ∉ first) (hfirst' : mark ∉ first')
    (h : first ++ mark :: rest = first' ++ mark :: rest') : first = first' ∧ rest = rest' := by
  obtain hsame | hoff := append_mark_cases h
  · exact hsame
  · obtain ⟨c, rfl, hmem⟩ := hoff.mem
    exact absurd hmem (not_or.mpr ⟨hfirst, hfirst'⟩)

/-- What is the text, or off it. -/
def Near (stop : α → Prop) (full text : List α) : Prop := text = full ∨ Off stop full text

theorem Near.mono {stop' : α → Prop} (himp : ∀ c, stop c → stop' c) {text : List α}
    (h : Near stop full text) : Near stop' full text :=
  h.imp id (Off.mono himp)

theorem Near.append_mark (h : Near stop (first ++ mark :: rest) (first' ++ mark :: rest')) :
    (first = first' ∧ Near stop rest rest') ∨ Off (· = mark) first first' := by
  obtain heq | hoff := h
  · obtain ⟨hfirst, hrest⟩ | hoff := append_mark_cases heq.symm
    · exact Or.inl ⟨hfirst, Or.inl hrest.symm⟩
    · exact Or.inr hoff
  · obtain ⟨hfirst, hrest⟩ | hoff := hoff.append_mark
    · exact Or.inl ⟨hfirst, Or.inr hrest⟩
    · exact Or.inr hoff

theorem Near.append_left {text : List α} (hfirst : ∀ c ∈ first, ¬ stop c)
    (h : Near stop (first ++ rest) text) :
    ∃ rest', text = first ++ rest' ∧ Near stop rest rest' := by
  obtain rfl | hoff := h
  · exact ⟨rest, rfl, Or.inl rfl⟩
  · cases hoff with
    | @short more c hc heq =>
      obtain ⟨between, htext, hrest⟩ | ⟨between, hsplit, hmore⟩ :=
        append_eq_append_iff.mp heq
      · exact ⟨between, htext, Or.inr (.short hc hrest)⟩
      · cases between with
        | nil =>
          rw [nil_append] at hmore
          exact ⟨[], by simpa using hsplit.symm, Or.inr (.short hc hmore.symm)⟩
        | cons d between =>
          rw [cons_append, List.cons.injEq] at hmore
          exact absurd (hmore.1 ▸ hc) (hfirst d (by simp [hsplit]))
    | @long more c hc heq =>
      exact ⟨rest ++ c :: more, by rw [heq, append_assoc], Or.inr (.long hc rfl)⟩

end

section
variable {α β : Type} [DecidableEq α] {weight : α → Int} {sep last : α} {gap : List α}
  {text : β → List α} {R : List α → β → Prop}

theorem split_joined (hsep : weight sep = 0) (hgap : ∀ c ∈ gap, weight c = 0 ∧ c ≠ sep)
    (f : List α → List α) (hf : ∀ part, f (gap ++ part) = f part) {members : List (List α)}
    (hne : members ≠ []) (h : Apart weight sep members) :
    (split weight sep (joined sep gap members)).map f = members.map f := by
  induction members with
  | nil => exact absurd rfl hne
  | cons first members ih =>
    cases members with
    | nil => rw [joined, split_closed h]
    | cons next more =>
      obtain ⟨hclosed, hdepth, happart⟩ := h
      obtain ⟨part, parts, hrest, hpadded⟩ := split_pad hgap (joined sep gap (next :: more))
      have hmore := ih (by simp) happart
      rw [hrest, map_cons] at hmore
      rw [joined, split_sep hsep hclosed hdepth, map_cons, hpadded, map_cons, hf, hmore]
      rfl

theorem split_ne_nil (hsep : weight sep = 0) (text : List α) : split weight sep text ≠ [] := by
  obtain ⟨-, h⟩ | ⟨first, rest, -, -, -, h⟩ := split_cases hsep text <;> simp [h]

/-- Where the parts of a text near the joined one read as the members, and no part near a member
reads as it but itself, the text is the joined one and its members stay apart. -/
theorem joined_of_parts (hsep : weight sep = 0) (hgap : ∀ c ∈ gap, weight c = 0 ∧ c ≠ sep)
    (hlast : last ∉ gap) (hpad : ∀ part b, R (gap ++ part) b → R part b) {items : List β}
    {L : β → Prop}
    (hexact : ∀ b ∈ items, ∀ part, Near (fun c => c = sep ∨ c = last) (text b) part → R part b →
      part = text b ∧ L b)
    {z : List α} (hnear : Near (· = last) (joined sep gap (items.map text)) z)
    (h : List.Forall₂ R (split weight sep z) items) :
    z = joined sep gap (items.map text) ∧ items ≠ [] ∧ Apart weight sep (items.map text) ∧
      ∀ b ∈ items, L b := by
  induction items generalizing z with
  | nil => exact absurd (forall₂_nil_right_iff.mp h) (split_ne_nil hsep z)
  | cons b items ih =>
    obtain ⟨hclosed, hsplit⟩ | ⟨first, rest, rfl, hclosed, hdepth, hsplit⟩ := split_cases hsep z
    · rw [hsplit, forall₂_cons] at h
      obtain ⟨hread, hrest⟩ := h
      rw [forall₂_nil_left_iff] at hrest
      subst hrest
      obtain ⟨hz, hL⟩ := hexact b (by simp) z (hnear.mono fun _ => Or.inr) hread
      subst hz
      exact ⟨rfl, by simp, hclosed, by simpa using hL⟩
    · rw [hsplit, forall₂_cons] at h
      obtain ⟨hread, hrest⟩ := h
      cases items with
      | nil => exact absurd (forall₂_nil_right_iff.mp hrest) (split_ne_nil hsep rest)
      | cons next items =>
        rw [map_cons, map_cons, joined, ← map_cons] at hnear
        have hfirst : Near (· = sep) (text b) first ∧ (first = text b →
            Near (· = last) (gap ++ joined sep gap ((next :: items).map text)) rest) := by
          obtain ⟨hsame, hrest⟩ | hoff := hnear.append_mark
          · exact ⟨Or.inl hsame.symm, fun _ => hrest⟩
          · exact ⟨Or.inr hoff, fun hsame => absurd hsame hoff.ne⟩
        obtain ⟨hsame, hL⟩ := hexact b (by simp) first (hfirst.1.mono fun _ => Or.inl) hread
        subst hsame
        have hstop : ∀ c ∈ gap, ¬ c = last := by
          rintro c hc rfl
          exact hlast hc
        obtain ⟨rest, rfl, hmore⟩ := (hfirst.2 rfl).append_left hstop
        obtain ⟨part, more, hparts, hpadded⟩ := split_pad hgap rest
        rw [hpadded, forall₂_cons] at hrest
        have hparts : List.Forall₂ R (split weight sep rest) (next :: items) := by
          rw [hparts]
          exact .cons (hpad _ _ hrest.1) hrest.2
        obtain ⟨rfl, -, happart, hall⟩ := ih (fun b hb => hexact b (mem_cons_of_mem _ hb)) hmore
          hparts
        exact ⟨rfl, by simp, ⟨hclosed, hdepth, happart⟩, by simpa [hL] using hall⟩

end
end DeltaSwamp.Bracketed
