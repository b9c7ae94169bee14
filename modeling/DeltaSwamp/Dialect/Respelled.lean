import DeltaSwamp.Dialect.Segments

/-!
# A literal keeps its value

Both respellings write each run of literals as one literal of the value Spark reads,
which is also the value the predicate parser takes from it.
-/

namespace DeltaSwamp.Dialect

open List

/-- Character classes in which no letter is a digit. -/
structure SqlChars extends Chars where
  letter_digit : ∀ c, c.isAlpha = true → isDigit c = false

section
variable {chars : Chars}

variable {text : List Char}

theorem standardFrom_plain (htext : ∀ c ∈ text, c ∉ quoteMarks) (turns : Nat) (rest : List Char)
    (s : Respelling) :
    standardFrom chars (text.length + turns) (text ++ rest) s =
      standardFrom chars turns rest { s with since := s.since ++ text } := by
  induction text generalizing s with
  | nil => simp
  | cons c text ih =>
    have hlength : (c :: text).length + turns = text.length + turns + 1 := by
      rw [length_cons]
      omega
    rw [hlength, cons_append, standardFrom, sparkText_plain (htext c (by simp))]
    dsimp only
    rw [ih fun d hd => htext d (by simp [hd])]
    simp

variable (chars) in
/-- One token's part of the respelling. -/
def Respelling.token (s : Respelling) (token : Tok) : Respelling :=
  if isLiteral token then s.literal chars token.text
  else if token.kind = .bq then s.name token.text
  else { s with since := s.since ++ token.text }

theorem textOf_cons (token : Tok) (tokens : List Tok) :
    textOf (token :: tokens) = token.text ++ textOf tokens := rfl

variable {tokens : List Tok}

theorem textOf_head (h : SparkTokens chars tokens)
    (hnext : ∀ next ∈ tokens.head?, next.kind ≠ .bq) :
    (textOf tokens).head? ≠ some '`' := by
  cases tokens with
  | nil => simp [textOf]
  | cons t tokens =>
    have ht := h.each t (by simp)
    rw [textOf_cons]
    cases hliteral : isLiteral t with
    | true =>
      obtain ⟨quote, body, hquote, htext, -⟩ := ht.literal hliteral
      rw [htext]
      obtain rfl | rfl := hquote <;> simp
    | false =>
      obtain ⟨hne, hbare⟩ := ht.bare hliteral (hnext t (by simp))
      obtain ⟨c, cs, htext⟩ := exists_cons_of_ne_nil hne
      rw [htext] at hbare ⊢
      rintro heq
      simp only [cons_append, List.head?_cons, Option.some.injEq] at heq
      exact hbare c (by simp) (by rw [heq]; decide)

theorem standardFrom_tokens (h : SparkTokens chars tokens) (s : Respelling) (turns : Nat)
    (hturns : (textOf tokens).length ≤ turns) :
    standardFrom chars turns (textOf tokens) s =
      (tokens.foldl (Respelling.token chars) s).finish [] := by
  induction tokens generalizing s turns with
  | nil => cases turns <;> rfl
  | cons t tokens ih =>
    have ht := h.each t (by simp)
    rw [textOf_cons, length_append] at hturns
    rw [textOf_cons, foldl_cons, Respelling.token]
    cases hliteral : isLiteral t with
    | true =>
      obtain ⟨quote, body, hquote, htext, hbody⟩ := ht.literal hliteral
      rw [htext, length_cons] at hturns
      obtain ⟨turns, rfl⟩ := Nat.exists_eq_add_one_of_ne_zero (by omega : turns ≠ 0)
      rw [htext, cons_append, standardFrom, ← cons_append,
        sparkText_literal hquote hbody]
      exact ih h.tail _ _ (by omega)
    | false =>
      by_cases hname : t.kind = .bq
      · obtain ⟨body, htext, hbody⟩ := ht.name hname
        have hhead := textOf_head h.tail (h.after_name hname)
        rw [htext, length_cons] at hturns
        obtain ⟨turns, rfl⟩ := Nat.exists_eq_add_one_of_ne_zero (by omega : turns ≠ 0)
        rw [htext, cons_append, standardFrom, ← cons_append,
          sparkText_name hbody fun hsame => absurd hsame hhead]
        simp only [Bool.false_eq_true, if_false, if_pos hname]
        exact ih h.tail _ _ (by omega)
      · obtain ⟨rest, rfl⟩ := Nat.exists_eq_add_of_le hturns
        rw [Nat.add_assoc, standardFrom_plain (ht.bare hliteral hname).2]
        simp only [Bool.false_eq_true, if_false, if_neg hname]
        exact ih h.tail _ _ (by omega)

theorem finish_eq (s : Respelling) : s.finish [] = s.flushed ++ points s.since := by
  simp [Respelling.finish]

theorem foldl_gap {gap : List Tok} {since : List Char} (out : CodePoints) (run : List (List Char))
    (hsince : since.all chars.isSpace = true) (hspace : ∀ token ∈ gap, token.kind = .ws)
    (hgap : ∀ token ∈ gap, SparkToken chars token) :
    ∃ last, last.all chars.isSpace = true ∧
      gap.foldl (Respelling.token chars) ⟨out, run, since⟩ = ⟨out, run, last⟩ := by
  induction gap generalizing since with
  | nil => exact ⟨since, hsince, rfl⟩
  | cons t gap ih =>
    have ht := hspace t (by simp)
    have hblank : t.text.all chars.isSpace = true := by
      have h := (hgap t (by simp)).shape
      unfold Shape at h
      rw [ht] at h
      exact all_eq_true.mpr h.2
    have hstep : Respelling.token chars ⟨out, run, since⟩ t = ⟨out, run, since ++ t.text⟩ := by
      simp [Respelling.token, isLiteral, ht]
    rw [foldl_cons, hstep]
    exact ih (by rw [all_append, hsince, hblank]; rfl)
      (fun token htoken => hspace token (by simp [htoken]))
      fun token htoken => hgap token (by simp [htoken])

theorem moreTokens_cons (next : List Tok × Tok) (more : List (List Tok × Tok)) :
    moreTokens (next :: more) = next.1 ++ next.2 :: moreTokens more := by
  simp [moreTokens]

theorem foldl_more {more : List (List Tok × Tok)} {out : CodePoints} {run : List (List Char)}
    (hrun : run ≠ []) (hmore : ∀ next ∈ more, Joined next)
    (htokens : ∀ token ∈ moreTokens more, SparkToken chars token) :
    (moreTokens more).foldl (Respelling.token chars) ⟨out, run, []⟩ =
      ⟨out, run ++ more.map fun next => next.2.text, []⟩ := by
  induction more generalizing run with
  | nil => simp [moreTokens]
  | cons next more ih =>
    obtain ⟨hspace, hliteral⟩ := hmore next (by simp)
    have hnone : ([] : List Char).all chars.isSpace = true := rfl
    obtain ⟨last, hlast, hfold⟩ := foldl_gap out run hnone hspace fun token htoken =>
      htokens token (by simp [moreTokens_cons, htoken])
    have hstep : Respelling.token chars ⟨out, run, last⟩ next.2 =
        ⟨out, run ++ [next.2.text], []⟩ := by
      simp [Respelling.token, hliteral, Respelling.literal, hrun, hlast]
    rw [moreTokens_cons, foldl_append, hfold, foldl_cons, hstep,
      ih (by simp) (fun next hnext => hmore next (by simp [hnext]))
        fun token htoken => htokens token (by simp [moreTokens_cons, htoken])]
    simp

/-- What the loop over the tokens writes: what it had, and each segment as its token stands, a run
as one literal. A run that is open ends before the tokens. -/
theorem foldl_segments {segments : List Segment} (hsegments : Segmented tokens segments)
    (htokens : SparkTokens chars tokens) (s : Respelling)
    (hapart : s.run ≠ [] → s.since.all chars.isSpace = true → goesOn tokens = false) :
    (tokens.foldl (Respelling.token chars) s).finish [] =
      s.finish [] ++ segments.flatMap (spelling fun token => points token.text) := by
  induction hsegments generalizing s with
  | nil => simp
  | @run first more rest segments hfirst hmore hgoes hsegments ih =>
    have hnew : ¬ (s.run ≠ [] ∧ s.since.all chars.isSpace = true) := by
      rintro ⟨hrun, hblank⟩
      have hnone := hapart hrun hblank
      rw [cons_append, goesOn_solid (isLiteral_solid hfirst), hfirst] at hnone
      cases hnone
    have hstep : Respelling.token chars s first =
        ⟨s.flushed ++ points s.since, [first.text], []⟩ := by
      rw [Respelling.token, if_pos hfirst, Respelling.literal, if_neg hnew]
    have hshapes : ∀ token ∈ moreTokens more, SparkToken chars token := fun token htoken =>
      htokens.each token (by simp [htoken])
    rw [foldl_append, foldl_cons, hstep, foldl_more (by simp) hmore hshapes,
      ih htokens.append_right _ (fun _ _ => hgoes), flatMap_cons, finish_eq, finish_eq]
    simp [Respelling.flushed, spelling, runValue, points, flatMap_map]
  | @other token rest segments hliteral hsegments ih =>
    rw [foldl_cons, flatMap_cons, Respelling.token]
    simp only [hliteral, Bool.false_eq_true, if_false]
    by_cases hname : token.kind = .bq
    · rw [if_pos hname, ih htokens.tail _ (fun hrun => absurd rfl hrun), finish_eq, finish_eq]
      simp [Respelling.name, Respelling.flushed, spelling, points]
    · rw [if_neg hname, ih htokens.tail]
      · rw [finish_eq, finish_eq]
        simp [Respelling.flushed, spelling, points]
      · intro hrun hblank
        dsimp only at hrun hblank
        rw [all_append, Bool.and_eq_true] at hblank
        have hspace : token.kind = .ws := by
          by_contra hkind
          obtain ⟨c, cs, htext, hsolid⟩ := (htokens.each token (by simp)).solid hkind
          simp [htext, hsolid] at hblank
        have hbefore := hapart hrun hblank.1
        rwa [← singleton_append, goesOn_gap (by simpa using hspace)] at hbefore

theorem sparkText_quoteless (hsingle : '\'' ∉ text) (hdouble : '"' ∉ text) :
    sparkText text = none ∨
      ∃ found rest, sparkText text = some (.name found, rest) ∧ text = found ++ rest := by
  cases text with
  | nil => exact Or.inl rfl
  | cons c text =>
    simp only [List.mem_cons, not_or] at hsingle hdouble
    unfold sparkText
    rw [literal_other (Ne.symm hsingle.1), literal_other (Ne.symm hdouble.1)]
    cases hread : quotedName (c :: text) with
    | none => exact Or.inl (by simp [Ne.symm hsingle.1, Ne.symm hdouble.1])
    | some read => exact Or.inr ⟨read.1, read.2, by simp, (quotedName_read hread).1⟩

theorem standardFrom_quoteless (turns : Nat) (hsingle : '\'' ∉ text) (hdouble : '"' ∉ text)
    {s : Respelling} (hrun : s.run = []) : standardFrom chars turns text s = s.finish text := by
  induction turns generalizing text s with
  | zero => cases text <;> rfl
  | succ turns ih =>
    cases text with
    | nil => rfl
    | cons c text =>
      rw [standardFrom]
      obtain hnone | ⟨found, rest, hfound, hsplit⟩ := sparkText_quoteless hsingle hdouble
      · simp only [mem_cons, not_or] at hsingle hdouble
        rw [hnone]
        dsimp only
        rw [ih hsingle.2 hdouble.2 (by exact hrun)]
        simp [Respelling.finish, Respelling.flushed, hrun]
      · rw [hsplit, mem_append, not_or] at hsingle hdouble
        rw [hfound, hsplit]
        dsimp only
        rw [ih hsingle.2 hdouble.2 (by rfl)]
        simp [Respelling.finish, Respelling.name, Respelling.flushed, hrun]

variable (chars) in
theorem standardStringLiterals_eq (text : List Char) :
    standardStringLiterals chars text = standardFrom chars text.length text ⟨[], [], []⟩ := by
  unfold standardStringLiterals
  split_ifs with hquotes
  · rw [standardFrom_quoteless _ hquotes.1 hquotes.2 rfl]
    simp [Respelling.finish, Respelling.flushed]
  · rfl

theorem standard_segments {segments : List Segment} (hsegments : Segmented tokens segments)
    (htokens : SparkTokens chars tokens) :
    standardStringLiterals chars (textOf tokens) =
      segments.flatMap (spelling fun token => points token.text) := by
  rw [standardStringLiterals_eq, standardFrom_tokens htokens _ _ (Nat.le_refl _),
    foldl_segments hsegments htokens _ fun hrun => absurd rfl hrun]
  rfl

theorem close_points {body : List Char} (h : NameText body) {rest : CodePoints}
    (hrest : rest.head? ≠ some '`'.toNat) :
    Doubled.close '`'.toNat (points body ++ rest) =
      some (points (Doubled.undouble '`' body.dropLast), rest) := by
  induction h with
  | close => exact Doubled.close_mark hrest
  | @plain c cs hc htext ih =>
    have hpoint : c.toNat ≠ '`'.toNat := fun heq => hc (Char.toNat_inj.mp heq)
    have hne : cs ≠ [] := by cases htext <;> simp
    rw [points, map_cons, cons_append, Doubled.close_other hpoint, ← points, ih,
      dropLast_cons_of_ne_nil hne, Doubled.undouble_other hc]
    rfl
  | @doubled cs htext ih =>
    have hne : cs ≠ [] := by cases htext <;> simp
    rw [points, map_cons, map_cons, cons_append, cons_append,
      Doubled.close_pair, ← points, ih, dropLast_cons_of_ne_nil (by simp),
      dropLast_cons_of_ne_nil hne, Doubled.undouble_pair]
    rfl

variable {token : Tok}

theorem identifier_eq {body : List Char} (htext : token.text = '`' :: body) :
    identifier token = Doubled.undouble '`' body.dropLast := by
  rw [identifier, inner, htext, tail_cons]

theorem points_head (h : SparkToken chars token) (hliteral : isLiteral token = false)
    (hname : token.kind ≠ .bq) : ∃ c ∈ (points token.text).head?, c ∉ points quoteMarks := by
  obtain ⟨hne, hbare⟩ := h.bare hliteral hname
  obtain ⟨c, cs, htext⟩ := exists_cons_of_ne_nil hne
  exact ⟨c.toNat, by simp [points, htext], points_bare (hbare c (by simp [htext]))⟩

theorem readQuoted_points (h : SparkToken chars token) (hname : token.kind = .bq)
    {rest : CodePoints} (hrest : rest.head? ≠ some '`'.toNat) :
    readQuoted '`' (points token.text ++ rest) = some (points (identifier token), rest) := by
  obtain ⟨body, htext, hbody⟩ := h.name hname
  rw [htext, identifier_eq htext, points, map_cons, cons_append, readQuoted, if_pos rfl]
  exact close_points hbody hrest

variable (chars) in
theorem renders_points : Renders chars '`' fun token => points token.text :=
  ⟨Or.inl rfl, fun _ h hname _ hrest => readQuoted_points h hname hrest, fun _ => points_head⟩

end
end DeltaSwamp.Dialect
