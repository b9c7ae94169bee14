import DeltaSwamp.Variant.Described

/-!
# Reading a described type

`_variant_tree` of `engine/sql.py`, a reader of type text with one cursor: what is left of the text
stands for the cursor. Each turn is a call of the reader or a turn of its loop over fields.
-/

namespace DeltaSwamp.Variant

open TypeText (Unicode)
open Storage (isSpace strip)

/-- `skip_ws` -/
def skipWs (text : Text) : Text := text.dropWhile isSpace

def endsIdent (c : Char) : Bool := c ∈ [':', '<', '>', ',', '(', ' ', '\t', '\n']

/-- `ident`: a quoted name that is not closed is read to the end of the text. -/
def ident (text : Text) : Text × Text :=
  match skipWs text with
  | '`' :: rest => (Doubled.close '`' rest).getD (Doubled.undouble '`' rest, [])
  | rest => (rest.takeWhile (!endsIdent ·), rest.dropWhile (!endsIdent ·))

/-- Where a character behind a type stands: outside quotes, inside them, or behind a backslash. -/
inductive Place
  | outside
  | inside (quote : Char)
  | escaped (quote : Char)

/-- `skip_to_end_of_field` -/
def skipField : Place → Text → Text
  | _, [] => []
  | .outside, c :: rest =>
    if c = ',' ∨ c = '>' then c :: rest
    else if c = '\'' ∨ c = '"' then skipField (.inside c) rest
    else skipField .outside rest
  | .inside quote, c :: rest =>
    if c = quote then skipField .outside rest
    else if c = '\\' then skipField (.escaped quote) rest
    else skipField (.inside quote) rest
  | .escaped quote, _ :: rest => skipField (.inside quote) rest

inductive Stop
  | outOfTurns
  | valueError
  deriving DecidableEq, Repr

/-- `decimal(10,2)`, `varchar(5)`: what follows the arguments. -/
def pastArgs : Text → Except Stop Text
  | '(' :: rest =>
    match rest.dropWhile (· ≠ ')') with
    | [] => .error .valueError
    | _ :: rest => .ok rest
  | text => .ok text

abbrev Parsed := Except Stop (Option Tree × Text)

/-- What stands behind a type's opening bracket, with what reads the types in it. -/
def parseInside (readType readFields : Text → Parsed) (word rest : Text) : Parsed :=
  if word = ['a', 'r', 'r', 'a', 'y'] then
    (readType rest).map fun (inner, rest) => (inner.map .array, (skipField .outside rest).tail)
  else if word = ['m', 'a', 'p'] then
    (readType rest).bind fun (_, rest) =>
      (readType (skipWs rest).tail).map fun (inner, rest) =>
        (inner.map .map, (skipField .outside rest).tail)
  else if word = ['s', 't', 'r', 'u', 'c', 't'] then
    match skipWs rest with
    | '>' :: rest => .ok (none, rest)
    | rest => readFields rest
  else .ok (none, '<' :: rest)

/-- What follows a type's name and arguments. -/
def parseParts (readType readFields : Text → Parsed) (word rest : Text) : Parsed :=
  if word = ['v', 'a', 'r', 'i', 'a', 'n', 't'] then .ok (some .variant, rest)
  else
    match rest with
    | '<' :: rest => parseInside readType readFields word rest
    | rest => .ok (none, rest)

/-- Behind a field: the struct's end, or what reads the next one. -/
def nextField (readFields : Dict Text Tree → Text → Parsed) (fields : Dict Text Tree) :
    Text → Parsed
  | '>' :: rest => .ok (structOf fields, rest)
  | rest => readFields fields rest.tail

section
variable (unicode : Unicode)

def add (fields : Dict Text Tree) (name : Text) : Option Tree → Dict Text Tree
  | some tree => fields.set (unicode.lower name) tree
  | none => fields

mutual

def parse : ℕ → Text → Parsed
  | 0, _ => .error .outOfTurns
  | turns + 1, text =>
    (pastArgs (skipWs (ident text).2)).bind fun rest =>
      parseParts (parse turns) (parseFields turns []) (unicode.lower (ident text).1) rest

def parseFields : ℕ → Dict Text Tree → Text → Parsed
  | _, fields, [] => .ok (structOf fields, [])
  | 0, _, _ => .error .outOfTurns
  | turns + 1, fields, text =>
    (parse turns (skipWs (ident text).2).tail).bind fun (inner, rest) =>
      nextField (parseFields turns) (add unicode fields (ident text).1 inner)
        (skipField .outside rest)

end

/-- `_variant_tree` -/
def variantTree (typeText : Text) : Except Stop (Option Tree) :=
  let text := strip typeText
  match parse unicode (text.length + 1) text with
  | .ok (tree, _) => .ok tree
  | .error .valueError => .ok none
  | .error .outOfTurns => .error .outOfTurns

end

variable {unicode : Unicode}

theorem parseFields_cons (turns : ℕ) (fields : Dict Text Tree) {text : Text} (h : text ≠ []) :
    parseFields unicode (turns + 1) fields text =
      (parse unicode turns (skipWs (ident text).2).tail).bind fun (inner, rest) =>
        nextField (parseFields unicode turns) (add unicode fields (ident text).1 inner)
          (skipField .outside rest) := by
  rw [parseFields]
  exact h

end DeltaSwamp.Variant
