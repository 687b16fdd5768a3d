/-!
# Writing TOML strings

A text is written in the form that needs the least escaping. Of the four forms of
the format, a basic string can hold anything because it has escapes, and a literal
string has none. Which form will do depends on the longest runs of either quote
and on the presence of backslashes, line feeds and control characters. Tabs may
stand in any string, but a basic string has them escaped.

A string over several lines begins with a line break of its own, which does not
count, if the text has one.
-/

namespace FormulaSynth

namespace Toml

/-- Whether a character can only be written by escaping it. Tab and line feed are
not among them. -/
def isControl (c : Char) : Bool :=
  (c.toNat < 32 && c ≠ '\t' && c ≠ '\n') || c = '\x7f'

/-- The length of the longest run of a character, where `current` of it have just
gone by. -/
def longestRun (q : Char) (current : Nat) : List Char → Nat
  | [] => current
  | c :: cs => if c = q then longestRun q (current + 1) cs else max current (longestRun q 0 cs)

/-- A character as an upper-case hexadecimal number of four digits. -/
def codePoint (c : Char) : List Char :=
  let digits := (Nat.toDigits 16 c.toNat).map Char.toUpper
  List.replicate (4 - digits.length) '0' ++ digits

/-- How a character other than a quote is written in a string with escapes. -/
def escape (multiline : Bool) (c : Char) : List Char :=
  if c = '\\' then ['\\', '\\']
  else if c = '\x08' then ['\\', 'b']
  else if c = '\t' then ['\\', 't']
  else if c = '\x0c' then ['\\', 'f']
  else if c = '\r' then ['\\', 'r']
  else if c = '\n' then if multiline then ['\n'] else ['\\', 'n']
  else if isControl c then ['\\', 'u'] ++ codePoint c
  else [c]

/-- The inside of a string with escapes. On one line every quote is escaped; over
several lines only the third of a run is, where `quotes` of it have just gone
by. -/
def escapeAll (multiline : Bool) (quotes : Nat) : List Char → List Char
  | [] => []
  | '"' :: cs =>
    if multiline && quotes < 2 then '"' :: escapeAll multiline (quotes + 1) cs
    else '\\' :: '"' :: escapeAll multiline 0 cs
  | c :: cs => escape multiline c ++ escapeAll multiline 0 cs

/-- **The forms of a string.** -/
inductive Form where
  | basic | literal | multilineBasic | multilineLiteral
  deriving DecidableEq, Repr

/-- **The form a text is written in**: the first of the four that it needs no escape
for, tabs apart, and otherwise a basic string. -/
def formOf (text : List Char) : Form :=
  let control := text.any isControl
  let backslash := text.contains '\\'
  let newline := text.contains '\n'
  let single := longestRun '\'' 0 text
  let double := longestRun '"' 0 text
  if !control && !backslash && double = 0 && !newline then .basic
  else if !control && single = 0 && !newline then .literal
  else if !control && !backslash && double ≤ 2 then .multilineBasic
  else if !control && single ≤ 2 then .multilineLiteral
  else if newline then .multilineBasic
  else .basic

/-- **A text as a string of a document.** -/
def quote (text : List Char) : List Char :=
  let lineBreak := if text.contains '\n' then ['\n'] else []
  match formOf text with
  | .basic => ['"'] ++ escapeAll false 0 text ++ ['"']
  | .literal => ['\''] ++ text ++ ['\'']
  | .multilineBasic => ['"', '"', '"'] ++ lineBreak ++ escapeAll true 0 text ++ ['"', '"', '"']
  | .multilineLiteral => ['\'', '\'', '\''] ++ lineBreak ++ text ++ ['\'', '\'', '\'']

end Toml

end FormulaSynth
