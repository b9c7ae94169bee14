import DeltaSwamp.TypeText.Spelling

/-!
# Column types as a warehouse describes them

Databricks types, the text DESCRIBE shows for one, and the parts of a type that hold a VARIANT.
-/

namespace DeltaSwamp.Variant

open TypeText (Unicode quote)

def wordChar (c : Char) : Bool := Text.isAsciiAlphanumeric c || c == '_'

/-- A name that needs no quotes: the name of a type, or a word behind one. -/
structure Word where
  text : Text
  nonempty : text ≠ []
  plain : ∀ c ∈ text, wordChar c = true

/-- The name of a type without parts, which is not `variant`. -/
structure ScalarName extends Word where
  other : text.map Char.toLower ≠ ['v', 'a', 'r', 'i', 'a', 'n', 't']

/-- What stands between a type's parentheses: `10,2`, `OGC:CRS84`. -/
structure Args where
  text : Text
  closed : ')' ∉ text

/-- A struct field's name, in backquotes where it needs them. -/
inductive Name
  | bare (word : Word)
  | quoted (text : Text)

def Name.text : Name → Text
  | .bare word => word.text
  | .quoted text => text

def Name.spelled : Name → Text
  | .bare word => word.text
  | .quoted text => quote text

/-- A part of a comment as it is written between its quotes. -/
inductive Piece (mark : Char)
  | plain (c : Char) (other : c ≠ mark ∧ c ≠ '\\')
  | escaped (c : Char)
  | doubled

def Piece.spelled {mark : Char} : Piece mark → Text
  | .plain c _ => [c]
  | .escaped c => ['\\', c]
  | .doubled => [mark, mark]

/-- What may follow the type of a struct's field. -/
inductive Trailer
  | notNull
  | collate (name : Word)
  | comment (mark : Char) (isMark : mark = '\'' ∨ mark = '"') (body : List (Piece mark))

def Trailer.spelled : Trailer → Text
  | .notNull => [' ', 'N', 'O', 'T', ' ', 'N', 'U', 'L', 'L']
  | .collate name => [' ', 'C', 'O', 'L', 'L', 'A', 'T', 'E', ' '] ++ name.text
  | .comment mark _ body =>
    [' ', 'C', 'O', 'M', 'M', 'E', 'N', 'T', ' '] ++ mark :: (body.flatMap Piece.spelled ++ [mark])

mutual

/-- A scalar's words are the collation of a string (`collate utf8_lcase`) or the fields of an
interval (`year to month`). -/
inductive Ty
  | variant
  | scalar (name : ScalarName) (args : Option Args) (words : List Word)
  | struct (fields : Fields)
  | array (element : Ty)
  | map (key value : Ty)

inductive Fields
  | nil
  | cons (name : Name) (type : Ty) (trailers : List Trailer) (rest : Fields)

end

def argsText : Option Args → Text
  | none => []
  | some args => '(' :: (args.text ++ [')'])

def wordsText (words : List Word) : Text := words.flatMap fun word => ' ' :: word.text

def trailersText (trailers : List Trailer) : Text := trailers.flatMap Trailer.spelled

mutual

/-- The text DESCRIBE shows for a type. -/
def Ty.text : Ty → Text
  | .variant => ['v', 'a', 'r', 'i', 'a', 'n', 't']
  | .scalar name args words => name.text ++ (argsText args ++ wordsText words)
  | .struct fields => ['s', 't', 'r', 'u', 'c', 't', '<'] ++ fields.text
  | .array element => ['a', 'r', 'r', 'a', 'y', '<'] ++ (element.text ++ ['>'])
  | .map key value => ['m', 'a', 'p', '<'] ++ (key.text ++ ',' :: (value.text ++ ['>']))

/-- The fields of a struct, and the bracket that closes it. -/
def Fields.text : Fields → Text
  | .nil => ['>']
  | .cons name type trailers rest =>
    name.spelled ++ ':' :: (type.text ++ (trailersText trailers ++ rest.more))

/-- The fields behind another one. -/
def Fields.more : Fields → Text
  | .nil => ['>']
  | .cons name type trailers rest =>
    ',' :: (name.spelled ++ ':' :: (type.text ++ (trailersText trailers ++ rest.more)))

end

/-- Where the VARIANTs of a type are: the type, pruned to the parts that hold one. -/
inductive Tree
  | variant
  | struct (fields : List (Text × Tree))
  | array (element : Tree)
  | map (value : Tree)

/-- A struct of pruned fields, where one is left. -/
def structOf (fields : Dict Text Tree) : Option Tree :=
  if fields.isEmpty then none else some (.struct fields)

section
variable (unicode : Unicode)

mutual

def Ty.prune : Ty → Option Tree
  | .variant => some .variant
  | .scalar _ _ _ => none
  | .struct fields => structOf fields.kept
  | .array element => element.prune.map .array
  | .map _ value => value.prune.map .map

/-- The fields that hold a VARIANT, under their lower-cased names. -/
def Fields.kept : Fields → Dict Text Tree
  | .nil => []
  | .cons name type _ rest =>
    match type.prune with
    | some tree => (unicode.lower name.text, tree) :: rest.kept
    | none => rest.kept

end

def Fields.names : Fields → List Text
  | .nil => []
  | .cons name _ _ rest => unicode.lower name.text :: rest.names

mutual

/-- A type the warehouse has: no struct holds a name twice, ignoring case, and no map's key holds a
VARIANT. -/
def Ty.Valid : Ty → Prop
  | .variant | .scalar _ _ _ => True
  | .struct fields => (fields.names unicode).Nodup ∧ fields.Valid
  | .array element => element.Valid
  | .map key value => key.prune unicode = none ∧ key.Valid ∧ value.Valid

def Fields.Valid : Fields → Prop
  | .nil => True
  | .cons _ type _ rest => type.Valid ∧ rest.Valid

end

end

/-- No words stand behind the type. -/
def Ty.Plain : Ty → Prop
  | .scalar _ _ words => words = []
  | _ => True

mutual

/-- No map's key, at any depth, has words behind it. -/
def Ty.KeysPlain : Ty → Prop
  | .variant | .scalar _ _ _ => True
  | .struct fields => fields.KeysPlain
  | .array element => element.KeysPlain
  | .map key value => key.Plain ∧ key.KeysPlain ∧ value.KeysPlain

def Fields.KeysPlain : Fields → Prop
  | .nil => True
  | .cons _ type _ rest => type.KeysPlain ∧ rest.KeysPlain

end

end DeltaSwamp.Variant
