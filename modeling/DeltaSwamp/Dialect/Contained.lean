import DeltaSwamp.Dialect.Followed

/-!
# A checked fragment stays one expression

What Spark's lexer makes of an accepted text, wherever it is spliced.
-/

namespace DeltaSwamp.Dialect

open List

section
variable {chars : Chars}

variable {text : List Char} {mode : Mode}

theorem run_word (hword : ∀ c ∈ text, chars.isWord c = true) (houtside : mode.Outside)
    (hne : text ≠ []) :
    ∃ out, run chars mode text = (out, .word (mode.run ++ text)) ∧
      wordRun chars mode.run text = mode.run ++ text ∧ Neutral out := by
  induction text generalizing mode with
  | nil => exact absurd rfl hne
  | cons c cs ih =>
    obtain ⟨hc, hcs⟩ := forall_mem_cons.mp hword
    obtain ⟨first, hstep, hfirst⟩ := step_word houtside hc
    by_cases hnil : cs = []
    · refine ⟨first, ?_, ?_, hfirst⟩
      · simp [hnil, run, hstep]
      · simp [hnil, wordRun, hc]
    · have hnext : (Mode.word (mode.run ++ [c])).Outside := trivial
      obtain ⟨last, hrun, hsame, hlast⟩ := ih hcs hnext hnil
      refine ⟨first ++ last, ?_, ?_, hfirst.append hlast⟩
      · rw [run_cons, hstep]
        dsimp only
        rw [hrun]
        simp [Mode.run]
      · rw [wordRun_cons, if_pos hc]
        simpa [Mode.run] using hsame

variable {token : Tok}

variable (chars) in
theorem passed_word (houtside : mode.Outside) (hne : token.text ≠ [])
    (hword : ∀ c ∈ token.text, chars.isWord c = true) :
    ∃ out w, Passed chars mode token out (.word w) ∧ Neutral out := by
  obtain ⟨out, hrun, hsame, hneutral⟩ := run_word hword houtside hne
  exact ⟨out, mode.run ++ token.text, .word_run hrun hsame, hneutral⟩

/-- Inside a number: nothing pending but the run of its word characters. -/
def Calm (mode : Mode) : Prop := mode = .plain ∨ ∃ w, mode = .word w

theorem Calm.ready (hcalm : Calm mode) (text : List Char) : Ready mode text := by
  rcases hcalm with rfl | ⟨w, rfl⟩
  · exact ⟨trivial, by simp, by simp, by simp⟩
  · exact ⟨trivial, by simp, by simp, by simp⟩

variable {c : Char}

variable (chars) in
theorem step_symbol (hready : Ready mode (c :: text)) (hmark : c ∈ marks)
    (hplain : c ∉ ['\'', '"', '`', '-', '/']) :
    step chars mode c = (mode.flush ++ [.symbol c], .plain) := by
  have hquote : isQuote c = false := by
    simp only [List.mem_cons, List.not_mem_nil, or_false, not_or] at hplain
    simp [isQuote, hplain]
  rw [step_plain chars hready (not_word chars hmark) (by simp [hquote]),
    start_symbol (chars.mark_solid c hmark) (not_word chars hmark) hplain]

variable (chars) in
theorem step_minus (hready : Ready mode ('-' :: text)) :
    step chars mode '-' = (mode.flush, .minus) := by
  rw [step_plain chars hready (not_word chars (by decide)) (by simp [isQuote]), start_minus,
    List.append_nil]

variable (chars) in
theorem step_slash (hready : Ready mode ('/' :: text)) :
    step chars mode '/' = (mode.flush, .slash) := by
  rw [step_plain chars hready (not_word chars (by decide)) (by simp [isQuote]), start_slash,
    List.append_nil]

theorem run_piece (hready : Ready mode (c :: text)) (hpiece : chars.isWord c = true ∨ c = '.') :
    Calm (step chars mode c).2 ∧ Neutral (step chars mode c).1 ∧
      (step chars mode c).2.run = wordRun chars mode.run [c] := by
  rcases hpiece with hword | rfl
  · obtain ⟨out, hstep, hneutral⟩ := step_word hready.outside hword
    rw [hstep]
    exact ⟨Or.inr ⟨_, rfl⟩, hneutral, by simp [wordRun, hword, Mode.run]⟩
  · rw [step_symbol chars hready (by decide) (by decide)]
    refine ⟨Or.inl rfl, (flush_neutral hready.outside).append (.symbol (by decide)), ?_⟩
    simp [wordRun, not_word chars (c := '.') (by decide), Mode.run]

theorem run_signed (hcalm : Calm mode) {d : Char} (hsign : c = '+' ∨ c = '-')
    (hword : chars.isWord d = true) :
    ∃ out, run chars mode [c, d] = (out, .word [d]) ∧ Neutral out ∧
      wordRun chars mode.run [c, d] = [d] := by
  have hd := word_not_mark hword
  have hready := hcalm.ready [c, d]
  have hsame : wordRun chars mode.run [c, d] = [d] := by
    have hc : chars.isWord c = false := not_word chars (by rcases hsign with rfl | rfl <;> decide)
    simp [wordRun, hc, hword]
  rcases hsign with rfl | rfl
  · refine ⟨mode.flush ++ [.symbol '+'], ?_,
      (flush_neutral hready.outside).append (.symbol (by decide)), hsame⟩
    have hlast : run chars .plain [d] = ([], .word [d]) := by
      simp [run, step, start_word chars hword]
    rw [run_cons, step_symbol chars hready (by decide) (by decide)]
    dsimp only
    rw [hlast, List.append_nil]
  · refine ⟨mode.flush ++ [.symbol '-'], ?_,
      (flush_neutral hready.outside).append (.symbol (by decide)), hsame⟩
    have hminus : d ≠ '-' := by rintro rfl; exact hd (by decide)
    have hlast : run chars .minus [d] = ([.symbol '-'], .word [d]) := by
      simp [run, step, hminus, emit, start_word chars hword]
    rw [run_cons, step_minus chars hready]
    dsimp only
    rw [hlast]

theorem run_pieces (hpieces : Pieces chars text) (hcalm : Calm mode) :
    Calm (run chars mode text).2 ∧ Neutral (run chars mode text).1 ∧
      (run chars mode text).2.run = wordRun chars mode.run text := by
  induction hpieces generalizing mode with
  | nil => exact ⟨hcalm, .nil, rfl⟩
  | @piece c cs hpiece _ ih =>
    obtain ⟨hnext, hneutral, hword⟩ := run_piece (hcalm.ready (c :: cs)) hpiece
    obtain ⟨hlast, hrest, hsame⟩ := ih hnext
    refine ⟨hlast, hneutral.append hrest, ?_⟩
    rw [run_cons]
    dsimp only
    rw [hsame, hword]
    rfl
  | @signed c d cs hsign hword _ ih =>
    obtain ⟨out, hrun, hneutral, hrunWord⟩ := run_signed hcalm hsign hword
    have hnext : Calm (.word [d]) := Or.inr ⟨_, rfl⟩
    obtain ⟨hlast, hrest, hsame⟩ := ih hnext
    have happend := run_append chars mode [c, d] cs
    rw [List.cons_append, List.cons_append, List.nil_append, hrun] at happend
    rw [happend]
    refine ⟨hlast, hneutral.append hrest, ?_⟩
    dsimp only
    rw [hsame]
    have hfold : wordRun chars mode.run (c :: d :: cs) =
        wordRun chars (wordRun chars mode.run [c, d]) cs := rfl
    rw [hfold, hrunWord]
    rfl

variable {rest : List Char}

theorem passed_number {cs : List Char} (htext : token.text = c :: cs)
    (hc : chars.isWord c = true ∨ c = '.') (hcs : Pieces chars cs)
    (hready : Ready mode (token.text ++ rest)) :
    ∃ out next, Passed chars mode token out next ∧ Neutral out := by
  rw [htext] at hready
  obtain ⟨hcalm, hfirst, hword⟩ := run_piece hready hc
  obtain ⟨hnext, hlast, hsame⟩ := run_pieces hcs hcalm
  refine ⟨_, _, ⟨rfl, ?_, ?_, ?_, ?_, ?_⟩, ?_⟩
  · rw [htext]
    exact (hnext.ready []).outside
  · rw [htext, run_cons, wordRun_cons]
    dsimp only
    rw [hsame, hword]
    rfl
  · rw [htext]
    intro hmode
    rcases hnext with h | ⟨w, h⟩ <;> simp [run_cons, h] at hmode
  · rw [htext]
    intro hmode
    rcases hnext with h | ⟨w, h⟩ <;> simp [run_cons, h] at hmode
  · rw [htext]
    intro read hmode
    rcases hnext with h | ⟨w, h⟩ <;> simp [run_cons, h] at hmode
  · rw [htext]
    exact hfirst.append hlast

theorem run_symbols (hmarks : ∀ c ∈ text, c ∈ marks)
    (hplain : ∀ c ∈ text, c ∉ ['\'', '"', '`', '-', '/']) (hready : Ready mode (text ++ rest))
    (hne : text ≠ []) :
    run chars mode text = (mode.flush ++ text.map .symbol, .plain) ∧
      wordRun chars mode.run text = [] := by
  induction text generalizing mode with
  | nil => exact absurd rfl hne
  | cons c cs ih =>
    obtain ⟨hc, hcs⟩ := forall_mem_cons.mp hmarks
    obtain ⟨hcp, hcsp⟩ := forall_mem_cons.mp hplain
    have hstep := step_symbol chars hready hc hcp
    rw [run_cons, wordRun_cons, hstep]
    by_cases hnil : cs = []
    · simp [hnil, run, wordRun, not_word chars hc]
    · have hnext : Ready .plain (cs ++ rest) := Calm.ready (Or.inl rfl) _
      obtain ⟨hrun, hsame⟩ := ih hcs hcsp hnext hnil
      dsimp only
      rw [hrun, not_word chars hc]
      exact ⟨by simp [Mode.flush], hsame⟩

theorem passed_symbols (hmarks : ∀ c ∈ token.text, c ∈ marks)
    (hplain : ∀ c ∈ token.text, c ∉ ['\'', '"', '`', '-', '/'])
    (hready : Ready mode (token.text ++ rest)) (hne : token.text ≠ []) :
    Passed chars mode token (mode.flush ++ token.text.map .symbol) .plain := by
  obtain ⟨hrun, hword⟩ := run_symbols hmarks hplain hready hne
  exact .plain hrun hword

theorem Neutral.symbols (hplain : ∀ c ∈ text, c ∉ ['(', '[', ')', ']', ';', ',']) :
    Neutral (text.map .symbol) := by
  induction text with
  | nil => exact .nil
  | cons c cs ih =>
    obtain ⟨hc, hcs⟩ := List.forall_mem_cons.mp hplain
    exact (Neutral.symbol hc).append (ih hcs)

variable {repr : List Char → String}

variable {stack next : List Char} {after : Option Tok}

theorem checkToken_scan (hkind : token.kind = .op) (htext : token.text = [c])
    (hc : c ∈ ['(', '[', ')', ']', ',']) (hcheck : checkToken repr stack token after = .ok next) :
    scan stack [.symbol c] = some next := by
  unfold checkToken at hcheck
  rw [hkind, htext] at hcheck
  dsimp only at hcheck
  by_cases hcomment : isComment token after = true
  · rw [if_pos hcomment] at hcheck
    cases hcheck
  · rw [if_neg hcomment] at hcheck
    simp only [List.mem_cons, List.not_mem_nil, or_false] at hc
    rcases hc with rfl | rfl | rfl | rfl | rfl
    · simpa [scan, scanOne] using hcheck
    · simpa [scan, scanOne] using hcheck
    · by_cases hhead : stack.head? = some '('
      · simpa [scan, scanOne, closing, hhead] using hcheck
      · simp [closing, hhead] at hcheck
    · by_cases hhead : stack.head? = some '['
      · simpa [scan, scanOne, closing, hhead] using hcheck
      · simp [closing, hhead] at hcheck
    · by_cases hempty : stack = []
      · simp [closing, hempty] at hcheck
      · simpa [scan, scanOne, closing, hempty] using hcheck

theorem checkToken_same (hplain : token.text ∉ [['('], ['['], [')'], [']'], [',']])
    (hcheck : checkToken repr stack token after = .ok next) : next = stack := by
  have hclosing : closing token.text = none := by
    unfold closing
    split
    · simp_all
    · simp_all
    · rfl
  simp only [List.mem_cons, List.not_mem_nil, or_false, not_or] at hplain
  unfold checkToken at hcheck
  cases hkind : token.kind <;> rw [hkind] at hcheck <;> dsimp only at hcheck
  case op =>
    rw [hclosing] at hcheck
    simp only [hplain, if_false, false_and] at hcheck
    split_ifs at hcheck
    simpa using hcheck.symm
  case other =>
    split_ifs at hcheck
    simpa using hcheck.symm
  all_goals simpa using hcheck.symm

theorem operator_kinds : ∀ text ∈ operators, text = ['-'] ∨ text = ['/'] ∨ text = ['-', '>'] ∨
    ((∀ c ∈ text, c ∈ marks) ∧ ∀ c ∈ text, c ∉ ['\'', '"', '`', '-', '/']) := by
  decide

theorem operator_brackets : ∀ text ∈ operators, (∃ c ∈ ['(', '[', ')', ']', ','], text = [c]) ∨
    ∀ c ∈ text, c ∉ ['(', '[', ')', ']', ';', ','] := by
  decide

theorem passed_op (hkind : token.kind = .op) (hshape : token.text ∈ operators)
    (hready : Ready mode (token.text ++ rest))
    (hcheck : checkToken repr stack token after = .ok next) :
    ∃ out last, Passed chars mode token out last ∧ scan stack out = some next := by
  have hflush := flush_neutral hready.outside
  rcases operator_kinds token.text hshape with htext | htext | htext | ⟨hmarks, hplain⟩
  · rw [htext] at hready
    have hsame := checkToken_same (by rw [htext]; decide) hcheck
    refine ⟨mode.flush, .minus, ⟨?_, trivial, ?_, ?_, by simp, by simp⟩,
      by rw [hsame]; exact hflush _⟩
    · simp [htext, run, step_minus chars hready]
    · simp [htext, wordRun, not_word chars (c := '-') (by decide), Mode.run]
    · simp [Tok.isOp, hkind, htext]
  · rw [htext] at hready
    have hsame := checkToken_same (by rw [htext]; decide) hcheck
    refine ⟨mode.flush, .slash, ⟨?_, trivial, ?_, by simp, ?_, by simp⟩,
      by rw [hsame]; exact hflush _⟩
    · simp [htext, run, step_slash chars hready]
    · simp [htext, wordRun, not_word chars (c := '/') (by decide), Mode.run]
    · simp [Tok.isOp, hkind, htext]
  · rw [htext] at hready
    have hsame := checkToken_same (by rw [htext]; decide) hcheck
    have hlast : run chars .minus ['>'] = ([.symbol '-', .symbol '>'], .plain) := by
      simp [run, step, emit, start_symbol (chars.mark_solid '>' (by decide))
        (not_word chars (c := '>') (by decide)) (by decide)]
    refine ⟨mode.flush ++ [.symbol '-', .symbol '>'], .plain, .plain ?_ ?_, ?_⟩
    · rw [htext, run_cons, step_minus chars hready]
      dsimp only
      rw [hlast]
    · simp [htext, wordRun, not_word chars (c := '>') (by decide)]
    · rw [hsame]
      have harrow : Neutral (['-', '>'].map .symbol) := .symbols (by decide)
      exact hflush.append harrow stack
  · have hne : token.text ≠ [] := by
      intro hnil
      rw [hnil] at hshape
      exact absurd hshape (by decide)
    refine ⟨_, _, passed_symbols hmarks hplain hready hne, ?_⟩
    rw [scan_append, hflush stack]
    rcases operator_brackets token.text hshape with ⟨c, hc, htext⟩ | hother
    · rw [htext]
      exact checkToken_scan hkind htext hc hcheck
    · have hsame : next = stack := by
        refine checkToken_same ?_ hcheck
        intro hmem
        simp only [mem_cons, not_mem_nil, or_false] at hmem
        rcases hmem with h | h | h | h | h <;> (rw [h] at hother; exact absurd hother (by decide))
      rw [hsame]
      exact Neutral.symbols hother stack

theorem passed_other (hkind : token.kind = .other) (htext : token.text = [c])
    (hspace : chars.isSpace c = false) (hop : [c] ∉ operators)
    (hready : Ready mode (token.text ++ rest))
    (hcheck : checkToken repr stack token after = .ok next) :
    ∃ out last, Passed chars mode token out last ∧ scan stack out = some next := by
  have hplain : c ∉ ['\'', '"', '`', ';'] := by
    intro hmem
    unfold checkToken at hcheck
    rw [hkind, htext] at hcheck
    simp only [mem_cons, not_mem_nil, or_false] at hmem
    rcases hmem with rfl | rfl | rfl | rfl <;> simp [quoteTexts] at hcheck
  have hsame : next = stack := by
    refine checkToken_same ?_ hcheck
    rw [htext]
    intro hmem
    apply hop
    revert hmem
    simp only [mem_cons, not_mem_nil, or_false, operators]
    tauto
  rw [hsame]
  by_cases hword : chars.isWord c = true
  · have hne : token.text ≠ [] := by simp [htext]
    have hwords : ∀ d ∈ token.text, chars.isWord d = true := by simpa [htext] using hword
    obtain ⟨out, w, hpassed, hneutral⟩ := passed_word chars hready.outside hne hwords
    exact ⟨out, _, hpassed, hneutral stack⟩
  · rw [Bool.not_eq_true] at hword
    simp only [mem_cons, not_mem_nil, or_false, not_or] at hplain
    have hmark : c ∉ ['-', '/', '(', '[', ')', ']', ','] := by
      intro hmem
      apply hop
      revert hmem
      simp only [mem_cons, not_mem_nil, or_false, operators]
      rintro (rfl | rfl | rfl | rfl | rfl | rfl | rfl) <;> simp
    simp only [mem_cons, not_mem_nil, or_false, not_or] at hmark
    rw [htext] at hready
    have hstep := step_plain chars hready hword (by simp [isQuote, hplain])
    rw [start_symbol hspace hword (by simp [hplain, hmark])] at hstep
    refine ⟨mode.flush ++ [.symbol c], .plain, .plain ?_ ?_, ?_⟩
    · simp [htext, run, hstep]
    · simp [htext, wordRun, hword]
    · exact (flush_neutral hready.outside).append (.symbol (by simp [hplain, hmark])) stack

/-- The lexer of the target passes a token that was checked, and the brackets go on alike. -/
theorem passed_token (hshape : Shape chars token rest) (hready : Ready mode (token.text ++ rest))
    (hcheck : checkToken repr stack token after = .ok next)
    (hraw : (isRawMark mode.run && holdsOwnQuote token) = false) :
    ∃ out last, Passed chars mode token out last ∧ scan stack out = some next := by
  have hsame : token.kind ≠ .op → token.kind ≠ .other → next = stack := by
    intro hop hother
    unfold checkToken at hcheck
    cases hkind : token.kind <;> rw [hkind] at hcheck hop hother <;> simp_all
  unfold Shape at hshape
  cases hkind : token.kind <;> rw [hkind] at hshape <;> dsimp only at hshape
  case ws =>
    rw [hsame (by simp [hkind]) (by simp [hkind])]
    exact ⟨_, _, passed_ws hready hshape.1 hshape.2, flush_neutral hready.outside stack⟩
  case str =>
    rw [hsame (by simp [hkind]) (by simp [hkind])]
    obtain ⟨body, htext, hbody⟩ := hshape
    obtain ⟨out, hpassed, hneutral⟩ := passed_literal chars (Or.inl rfl) htext hbody
      (by simp [isLiteral, hkind]) hready hraw
    exact ⟨out, _, hpassed, hneutral stack⟩
  case dstr =>
    rw [hsame (by simp [hkind]) (by simp [hkind])]
    obtain ⟨body, htext, hbody⟩ := hshape
    obtain ⟨out, hpassed, hneutral⟩ := passed_literal chars (Or.inr rfl) htext hbody
      (by simp [isLiteral, hkind]) hready hraw
    exact ⟨out, _, hpassed, hneutral stack⟩
  case bq =>
    rw [hsame (by simp [hkind]) (by simp [hkind])]
    obtain ⟨body, htext, hbody, -⟩ := hshape
    obtain ⟨text, hpassed⟩ := passed_name chars htext hbody hkind hready
    exact ⟨_, _, hpassed, flush_neutral hready.outside stack⟩
  case num =>
    rw [hsame (by simp [hkind]) (by simp [hkind])]
    obtain ⟨c, cs, htext, hc, hcs⟩ := hshape
    obtain ⟨out, last, hpassed, hneutral⟩ := passed_number htext hc hcs hready
    exact ⟨out, last, hpassed, hneutral stack⟩
  case word =>
    rw [hsame (by simp [hkind]) (by simp [hkind])]
    obtain ⟨out, w, hpassed, hneutral⟩ := passed_word chars hready.outside hshape.1 hshape.2
    exact ⟨out, _, hpassed, hneutral stack⟩
  case op => exact passed_op hkind hshape hready hcheck
  case other =>
    obtain ⟨c, htext, hspace, hop⟩ := hshape
    exact passed_other hkind htext hspace hop hready hcheck

end
end DeltaSwamp.Dialect
