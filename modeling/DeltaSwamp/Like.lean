import DeltaSwamp.Text

/-!
# LIKE patterns

SQL's `LIKE`: `%` stands for any text, `_` for any one character, and a
backslash makes the next character stand for itself.
-/

namespace DeltaSwamp

namespace Like

inductive Token where
  | any
  | one
  | char (c : Char)
  deriving DecidableEq

/-- The tokens of a pattern; a backslash that ends the pattern is itself. -/
def tokens : Text → List Token
  | '\\' :: c :: rest => .char c :: tokens rest
  | c :: rest => (if c = '%' then .any else if c = '_' then .one else .char c) :: tokens rest
  | [] => []

/-- Whether some suffix of a text passes. -/
def anySuffix (f : Text → Bool) : Text → Bool
  | [] => f []
  | c :: s => f (c :: s) || anySuffix f s

def accepts : List Token → Text → Bool
  | [], s => s.isEmpty
  | .any :: ts, s => anySuffix (accepts ts) s
  | .one :: _, [] => false
  | .one :: ts, _ :: s => accepts ts s
  | .char _ :: _, [] => false
  | .char c :: ts, d :: s => decide (c = d) && accepts ts s

theorem accepts_chars (s t : Text) : accepts (s.map .char) t = decide (t = s) := by
  induction s generalizing t with
  | nil => cases t <;> simp [accepts]
  | cons c s ih =>
    cases t with
    | nil => simp [accepts]
    | cons d t =>
      rw [List.map_cons, accepts, ih, Bool.eq_iff_iff]
      simp [@eq_comm _ c d]

end Like

/-- `s LIKE pattern`. -/
def like (s pattern : Text) : Bool := Like.accepts (Like.tokens pattern) s

end DeltaSwamp
