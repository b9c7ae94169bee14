import DeltaSwamp.Dialect.Parser
import DeltaSwamp.Dialect.Shapes

/-!
# The two lexers in step

After each token of `_tokenize` Spark's lexer is outside literals and comments,
with the same brackets open; the two places where they part are named here.
-/

namespace DeltaSwamp.Dialect

open List

/-- `-` right before `->`: two tokens here, the start of a comment there. -/
def dashArrow : List Tok → Bool
  | first :: second :: tokens =>
    (first.isOp [['-']] && second.isOp [['-', '>']]) || dashArrow (second :: tokens)
  | _ => false

/-- A literal with its own quote inside, which only an escape puts there. -/
def holdsOwnQuote (token : Tok) : Bool :=
  isLiteral token &&
    match token.text with
    | quote :: body => body.dropLast.contains quote
    | [] => false

section
variable (chars : Chars)

/-- The run of word characters a text ends with, after a run it continues. -/
def wordRun (run text : List Char) : List Char :=
  text.foldl (fun run c => if chars.isWord c then run ++ [c] else []) run

/-- A literal with its own quote inside right after a word `r`: raw in Spark, so it ends at that
quote, and with escapes here. -/
def rawClash : List Char → List Tok → Bool
  | _, [] => false
  | run, token :: tokens =>
    (isRawMark run && holdsOwnQuote token) || rawClash (wordRun chars run token.text) tokens

end

/-- Lexemes that open and close nothing. -/
def Neutral (group : List Lexeme) : Prop := ∀ stack, scan stack group = some stack

/-- Between tokens: no comment starts with the next character, and no name goes on. -/
structure Ready (mode : Mode) (text : List Char) : Prop where
  outside : mode.Outside
  minus : mode = .minus → text.head? ≠ some '-'
  slash : mode = .slash → text.head? ≠ some '*'
  name : ∀ read, mode = .nameEnd read → text.head? ≠ some '`'

section
variable {chars : Chars}

theorem Neutral.append {first last : List Lexeme} (hfirst : Neutral first) (hlast : Neutral last) :
    Neutral (first ++ last) := by
  intro stack
  rw [scan_append, hfirst stack]
  exact hlast stack

theorem Neutral.nil : Neutral [] := fun _ => rfl

variable {c : Char}

theorem Neutral.symbol (hplain : c ∉ ['(', '[', ')', ']', ';', ',']) : Neutral [.symbol c] := by
  intro stack
  simp only [mem_cons, not_mem_nil, or_false, not_or] at hplain
  simp [scan, scanOne, hplain]

variable {mode : Mode}

theorem flush_neutral (houtside : mode.Outside) : Neutral mode.flush := by
  cases mode with
  | plain | word | nameEnd => exact fun _ => rfl
  | minus | slash => exact .symbol (by decide)
  | quoted | escape | raw | name | line | block => exact houtside.elim

variable (chars) in
theorem not_word (hmark : c ∈ marks) : chars.isWord c = false := chars.mark_plain c hmark

theorem word_not_mark (hword : chars.isWord c = true) : c ∉ marks := by
  intro hmark
  rw [not_word chars hmark] at hword
  cases hword

variable (chars) in
theorem start_space (hspace : chars.isSpace c = true) : start chars c = ([], .plain) := by
  simp [start, hspace]

variable (chars) in
theorem start_word (hword : chars.isWord c = true) : start chars c = ([], .word [c]) := by
  have hmark := word_not_mark hword
  have hspace : chars.isSpace c = false := by
    by_contra hc
    rw [Bool.not_eq_false] at hc
    rw [chars.space_plain c hc] at hword
    cases hword
  simp only [marks, mem_cons, not_mem_nil, or_false, not_or] at hmark
  simp [start, isQuote, hspace, hword, hmark]

theorem start_quote (hquote : c = '\'' ∨ c = '"') : start chars c = ([], .quoted c [c]) := by
  have hmark : c ∈ marks := by rcases hquote with rfl | rfl <;> decide
  simp [start, chars.mark_solid c hmark, isQuote, hquote]

theorem start_name : start chars '`' = ([], .name ['`']) := by
  simp [start, isQuote, chars.mark_solid '`' (by decide)]

theorem start_minus : start chars '-' = ([], .minus) := by
  simp [start, isQuote, chars.mark_solid '-' (by decide)]

theorem start_slash : start chars '/' = ([], .slash) := by
  simp [start, isQuote, chars.mark_solid '/' (by decide)]

theorem start_symbol (hspace : chars.isSpace c = false) (hword : chars.isWord c = false)
    (hplain : c ∉ ['\'', '"', '`', '-', '/']) : start chars c = ([.symbol c], .plain) := by
  simp only [mem_cons, not_mem_nil, or_false, not_or] at hplain
  simp [start, isQuote, hspace, hword, hplain]

variable (chars) in
theorem step_plain {text : List Char} (hready : Ready mode (c :: text))
    (hword : chars.isWord c = false) (hraw : (isQuote c && isRawMark mode.run) = false) :
    step chars mode c = (mode.flush ++ (start chars c).1, (start chars c).2) := by
  obtain ⟨houtside, hminus, hslash, hname⟩ := hready
  cases mode with
  | plain => simp [step, Mode.flush]
  | word run =>
    dsimp only [Mode.run] at hraw
    simp only [step, hword, hraw, Mode.flush, emit, Bool.false_eq_true, if_false,
      singleton_append]
  | minus => simp [step, Mode.flush, emit, by simpa using hminus rfl]
  | slash => simp [step, Mode.flush, emit, by simpa using hslash rfl]
  | nameEnd read => simp [step, Mode.flush, emit, by simpa using hname read rfl]
  | quoted | escape | raw | name | line | block => exact houtside.elim

theorem step_word (houtside : mode.Outside) (hword : chars.isWord c = true) :
    ∃ out, step chars mode c = (out, .word (mode.run ++ [c])) ∧ Neutral out := by
  have hmark := word_not_mark hword
  simp only [marks, mem_cons, not_mem_nil, or_false, not_or] at hmark
  cases mode with
  | plain => exact ⟨[], by simp [step, start_word chars hword, Mode.run], .nil⟩
  | word run => exact ⟨[], by simp [step, hword, Mode.run], .nil⟩
  | minus =>
    exact ⟨[.symbol '-'], by simp [step, start_word chars hword, emit, hmark, Mode.run],
      .symbol (by decide)⟩
  | slash =>
    exact ⟨[.symbol '/'], by simp [step, start_word chars hword, emit, hmark, Mode.run],
      .symbol (by decide)⟩
  | nameEnd read =>
    exact ⟨[.name read], by simp [step, start_word chars hword, emit, hmark, Mode.run],
      fun _ => rfl⟩
  | quoted | escape | raw | name | line | block => exact houtside.elim

theorem run_cons (mode : Mode) (c : Char) (cs : List Char) :
    run chars mode (c :: cs) = ((step chars mode c).1 ++ (run chars (step chars mode c).2 cs).1,
      (run chars (step chars mode c).2 cs).2) := rfl

theorem wordRun_cons (before : List Char) (c : Char) (cs : List Char) :
    wordRun chars before (c :: cs) =
      wordRun chars (if chars.isWord c then before ++ [c] else []) cs := rfl

/-- What Spark's lexer does over a token: it ends outside, with the same run of word characters, and
`-`, `/` and a quoted name pending only after these. -/
structure Passed (chars : Chars) (mode : Mode) (token : Tok) (out : List Lexeme) (next : Mode) :
    Prop where
  ran : run chars mode token.text = (out, next)
  outside : next.Outside
  word : next.run = wordRun chars mode.run token.text
  minus : next = .minus → token.isOp [['-']] = true
  slash : next = .slash → token.isOp [['/']] = true
  name : ∀ read, next = .nameEnd read → token.kind = .bq

variable {token : Tok}

theorem Passed.plain {out : List Lexeme} (hran : run chars mode token.text = (out, .plain))
    (hword : wordRun chars mode.run token.text = []) : Passed chars mode token out .plain :=
  ⟨hran, trivial, hword.symm, by simp, by simp, by simp⟩

theorem Passed.word_run {out : List Lexeme} {w : List Char}
    (hran : run chars mode token.text = (out, .word w))
    (hword : wordRun chars mode.run token.text = w) : Passed chars mode token out (.word w) :=
  ⟨hran, trivial, hword.symm, by simp, by simp, by simp⟩

variable (chars) in
theorem run_spaces {text : List Char} (hspace : ∀ c ∈ text, chars.isSpace c = true) :
    run chars .plain text = ([], .plain) ∧ wordRun chars [] text = [] := by
  induction text with
  | nil => exact ⟨rfl, rfl⟩
  | cons c cs ih =>
    obtain ⟨hrun, hword⟩ := ih fun d hd => hspace d (by simp [hd])
    have hc := hspace c (by simp)
    rw [run_cons, wordRun_cons]
    simp [step, start_space chars hc, hrun, hword, chars.space_plain c hc]

variable {rest : List Char}

theorem passed_ws (hready : Ready mode (token.text ++ rest)) (hne : token.text ≠ [])
    (hspace : ∀ c ∈ token.text, chars.isSpace c = true) :
    Passed chars mode token mode.flush .plain := by
  cases htext : token.text with
  | nil => exact absurd htext hne
  | cons c cs =>
    rw [htext] at hready hspace
    have hc := hspace c (by simp)
    have hquote : isQuote c = false := by
      by_contra h
      have hmark : c ∈ marks := by
        simp only [isQuote, Bool.not_eq_false, Bool.or_eq_true, beq_iff_eq] at h
        rcases h with rfl | rfl <;> decide
      rw [chars.mark_solid c hmark] at hc
      cases hc
    have hstep := step_plain chars hready (chars.space_plain c hc) (by simp [hquote])
    obtain ⟨hrun, hword⟩ := run_spaces chars (forall_mem_cons.mp hspace).2
    apply Passed.plain
    · rw [htext, run_cons, hstep, start_space chars hc]
      simp [hrun]
    · rw [htext, wordRun_cons]
      simp [chars.space_plain c hc, hword]

variable {quote : Char} {body : List Char}

variable (chars) in
theorem run_quoted (hslash : quote ≠ '\\') (hbody : LiteralText quote body) (read : List Char) :
    ∃ text, run chars (.quoted quote read) body = ([.literal text], .plain) := by
  induction hbody generalizing read with
  | close => exact ⟨read ++ [quote], by simp [run, step]⟩
  | @plain c cs hquote hescape _ ih =>
    obtain ⟨text, hrun⟩ := ih (read ++ [c])
    exact ⟨text, by simp [run, step, hquote, hescape, hrun]⟩
  | @escaped c cs _ ih =>
    obtain ⟨text, hrun⟩ := ih (read ++ ['\\', c])
    exact ⟨text, by simp [run, step, Ne.symm hslash, hrun]⟩

theorem LiteralText.ne_nil (hbody : LiteralText quote body) : body ≠ [] := by
  cases hbody <;> simp

variable (chars) in
/-- A raw literal ends where the one with escapes does, if its quote stands nowhere inside. -/
theorem run_raw (hbody : LiteralText quote body) (hinside : quote ∉ body.dropLast)
    (read : List Char) : ∃ text, run chars (.raw quote read) body = ([.literal text], .plain) := by
  induction hbody generalizing read with
  | close => exact ⟨read ++ [quote], by simp [run, step]⟩
  | @plain c cs hquote _ hcs ih =>
    rw [dropLast_cons_of_ne_nil hcs.ne_nil, mem_cons, not_or] at hinside
    obtain ⟨text, hrun⟩ := ih hinside.2 (read ++ [c])
    exact ⟨text, by simp [run, step, hquote, hrun]⟩
  | @escaped c cs hcs ih =>
    rw [dropLast_cons_of_ne_nil (by simp), dropLast_cons_of_ne_nil hcs.ne_nil,
      mem_cons, mem_cons, not_or, not_or] at hinside
    obtain ⟨text, hrun⟩ := ih hinside.2.2 (read ++ ['\\', c])
    exact ⟨text, by
      simp [run, step, Ne.symm hinside.1, Ne.symm hinside.2.1, hrun]⟩

theorem LiteralText.wordRun (hbody : LiteralText quote body) (hquote : chars.isWord quote = false)
    (before : List Char) : wordRun chars before body = [] := by
  induction hbody generalizing before with
  | close => simp [DeltaSwamp.Dialect.wordRun, hquote]
  | plain _ _ _ ih => exact ih _
  | escaped _ ih => exact ih _

variable (chars) in
theorem passed_literal (hquote : quote = '\'' ∨ quote = '"') (htext : token.text = quote :: body)
    (hbody : LiteralText quote body) (hliteral : isLiteral token = true)
    (hready : Ready mode (token.text ++ rest))
    (hraw : (isRawMark mode.run && holdsOwnQuote token) = false) :
    ∃ out, Passed chars mode token out .plain ∧ Neutral out := by
  have hmark : quote ∈ marks := by rcases hquote with rfl | rfl <;> decide
  have hslash : quote ≠ '\\' := by rcases hquote with rfl | rfl <;> decide
  have hends : wordRun chars mode.run token.text = [] := by
    rw [htext, wordRun_cons]
    exact hbody.wordRun (not_word chars hmark) _
  rw [htext] at hready
  by_cases hmode : (isQuote quote && isRawMark mode.run) = true
  · rw [Bool.and_eq_true] at hmode
    cases mode with
    | word before =>
      have hinside : quote ∉ body.dropLast := by
        simpa [hmode.2, holdsOwnQuote, hliteral, htext] using hraw
      obtain ⟨text, hrun⟩ := run_raw chars hbody hinside (before ++ [quote])
      have hstep : step chars (.word before) quote = ([], .raw quote (before ++ [quote])) := by
        have hmark : isRawMark before = true := hmode.2
        simp [step, not_word chars ‹quote ∈ marks›, hmode.1, hmark]
      refine ⟨[.literal text], .plain ?_ hends, fun _ => rfl⟩
      rw [htext, run_cons, hstep]
      simp [hrun]
    | plain | minus | slash | nameEnd => exact absurd hmode.2 (by simp [Mode.run, isRawMark])
    | quoted | escape | raw | name | line | block => exact hready.outside.elim
  · rw [Bool.not_eq_true] at hmode
    have hstep := step_plain chars hready (not_word chars hmark) hmode
    obtain ⟨text, hrun⟩ := run_quoted chars hslash hbody [quote]
    refine ⟨mode.flush ++ [.literal text], .plain ?_ hends,
      (flush_neutral hready.outside).append fun _ => rfl⟩
    rw [htext, run_cons, hstep, start_quote hquote]
    simp [hrun]

variable (chars) in
theorem run_name (hbody : NameText body) (read : List Char) :
    ∃ text, run chars (.name read) body = ([], .nameEnd text) := by
  induction hbody generalizing read with
  | close => exact ⟨read ++ ['`'], by simp [run, step]⟩
  | @plain c cs hother _ ih =>
    obtain ⟨text, hrun⟩ := ih (read ++ [c])
    exact ⟨text, by simp [run, step, hother, hrun]⟩
  | @doubled cs _ ih =>
    obtain ⟨text, hrun⟩ := ih (read ++ ['`', '`'])
    exact ⟨text, by simp [run, step, hrun]⟩

theorem NameText.wordRun (hbody : NameText body) (before : List Char) :
    wordRun chars before body = [] := by
  induction hbody generalizing before with
  | close => simp [DeltaSwamp.Dialect.wordRun, not_word chars (c := '`') (by decide)]
  | plain _ _ ih => exact ih _
  | doubled _ ih => exact ih _

variable (chars) in
theorem passed_name (htext : token.text = '`' :: body) (hbody : NameText body)
    (hkind : token.kind = .bq) (hready : Ready mode (token.text ++ rest)) :
    ∃ text, Passed chars mode token mode.flush (.nameEnd text) := by
  rw [htext] at hready
  have hstep := step_plain chars hready (not_word chars (by decide)) (by simp [isQuote])
  obtain ⟨text, hrun⟩ := run_name chars hbody ['`']
  refine ⟨text, ?_, trivial, ?_, by simp, by simp, fun _ _ => hkind⟩
  · rw [htext, run_cons, hstep, start_name]
    simp [hrun]
  · rw [htext, wordRun_cons, hbody.wordRun]
    rfl

end
end DeltaSwamp.Dialect
