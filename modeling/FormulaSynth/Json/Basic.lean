import FormulaSynth.Decimal.Integer
/-!
# Writing JSON

The values the program writes in JSON and the two forms it writes them in:
compact, with no space anywhere, and laid out over lines with two spaces per
level. Numbers are integers, since no other number is ever written, and the
fields of an object stay in the order they are given in.

Strings are quoted as the format asks and no further: the quote, the backslash
and the control characters are escaped, everything else stands for itself.
-/

namespace FormulaSynth

/-- **A value to be written.** -/
inductive Json where
  | null
  | bool (b : Bool)
  | integer (i : Int)
  | string (s : String)
  | array (items : List Json)
  | object (fields : List (String × Json))

namespace Json

/-- A number that may be missing. -/
def optional : Option Nat → Json
  | some n => integer n
  | none => null

/-! ## Strings -/

/-- How one character is written inside quotes. Control characters without a
letter of their own are written by number, in lower-case digits. -/
def escape (c : Char) : List Char :=
  if c = '"' then ['\\', '"']
  else if c = '\\' then ['\\', '\\']
  else if c = '\x08' then ['\\', 'b']
  else if c = '\x0c' then ['\\', 'f']
  else if c = '\n' then ['\\', 'n']
  else if c = '\r' then ['\\', 'r']
  else if c = '\t' then ['\\', 't']
  else if c.toNat < 32 then
    ['\\', 'u', '0', '0', Nat.digitChar (c.toNat / 16), Nat.digitChar (c.toNat % 16)]
  else [c]

/-- **A string in quotes.** -/
def quote (s : String) : List Char :=
  '"' :: (s.toList.flatMap escape ++ ['"'])

/-! ## The compact form -/

/-- The text of a truth value. -/
def boolText (b : Bool) : List Char :=
  if b then ['t', 'r', 'u', 'e'] else ['f', 'a', 'l', 's', 'e']

mutual

/-- **The compact text of a value.** -/
def compact : Json → List Char
  | null => ['n', 'u', 'l', 'l']
  | bool b => boolText b
  | integer i => Decimal.ofInt i
  | string s => quote s
  | array [] => ['[', ']']
  | array (item :: rest) => '[' :: (compact item ++ compactItems rest)
  | object [] => ['\x7b', '\x7d']
  | object ((key, value) :: rest) =>
    '\x7b' :: (quote key ++ ':' :: (compact value ++ compactFields rest))

/-- The items after the first, each with its comma, up to the closing bracket. -/
def compactItems : List Json → List Char
  | [] => [']']
  | item :: rest => ',' :: (compact item ++ compactItems rest)

/-- The fields after the first, each with its comma, up to the closing brace. -/
def compactFields : List (String × Json) → List Char
  | [] => ['\x7d']
  | (key, value) :: rest =>
    ',' :: (quote key ++ ':' :: (compact value ++ compactFields rest))

end

/-! ## The laid out form -/

/-- A new line indented by a number of levels. -/
def newLine (level : Nat) : List Char :=
  '\n' :: List.replicate (2 * level) ' '

mutual

/-- **The text of a value laid out over lines**, where the value stands `level`
levels deep. Empty arrays and objects stay on one line. -/
def laidOut (level : Nat) : Json → List Char
  | null => ['n', 'u', 'l', 'l']
  | bool b => boolText b
  | integer i => Decimal.ofInt i
  | string s => quote s
  | array [] => ['[', ']']
  | array (item :: rest) =>
    '[' :: (newLine (level + 1) ++ laidOut (level + 1) item ++ laidOutItems level rest)
  | object [] => ['\x7b', '\x7d']
  | object ((key, value) :: rest) =>
    '\x7b' :: (newLine (level + 1) ++ quote key ++ ':' :: ' ' ::
      (laidOut (level + 1) value ++ laidOutFields level rest))

/-- The items after the first, each on a line of its own. -/
def laidOutItems (level : Nat) : List Json → List Char
  | [] => newLine level ++ [']']
  | item :: rest =>
    ',' :: (newLine (level + 1) ++ laidOut (level + 1) item ++ laidOutItems level rest)

/-- The fields after the first, each on a line of its own. -/
def laidOutFields (level : Nat) : List (String × Json) → List Char
  | [] => newLine level ++ ['\x7d']
  | (key, value) :: rest =>
    ',' :: (newLine (level + 1) ++ quote key ++ ':' :: ' ' ::
      (laidOut (level + 1) value ++ laidOutFields level rest))

end

/-! ## Sorted fields -/

/-- A field put before the first one with a greater key. -/
def insertField (field : String × Json) : List (String × Json) → List (String × Json)
  | [] => [field]
  | f :: rest => if field.1 < f.1 then field :: f :: rest else f :: insertField field rest

mutual

/-- **The value with its fields in the order of their keys**, at every level. -/
def sorted : Json → Json
  | array items => array (sortedItems items)
  | object fields => object (sortedFields fields)
  | other => other

def sortedItems : List Json → List Json
  | [] => []
  | item :: rest => sorted item :: sortedItems rest

def sortedFields : List (String × Json) → List (String × Json)
  | [] => []
  | (key, value) :: rest => insertField (key, sorted value) (sortedFields rest)

end

end Json

end FormulaSynth
