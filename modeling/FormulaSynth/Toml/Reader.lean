import FormulaSynth.Decimal.Shortest
import FormulaSynth.Text.Scanner
import FormulaSynth.Toml.Document
/-!
# Reading TOML

From the text of a document to its plain data, by version 1.0 of the format.

Values are read with a bound on the recursion that the length of the text
supplies: no two steps of the recursion in a row leave the text as it is, so the
bound is never what ends it. Arrays and inline tables may lie at most so deep in one
another, and a dotted key may have at most so many parts; that is a limit of its
own, `nestingLimit`, and a document that exceeds it is refused.
-/

namespace FormulaSynth

namespace Toml

open Scanner

/-- One more than how deep values may lie in one another. -/
def nestingLimit : Nat := 80

/-! ## Layout -/

/-- Whether a character is a space or a tab. -/
def isSpace (c : Char) : Bool :=
  c = ' ' || c = '\t'

/-- Whether a character may stand in a comment. -/
def isCommentChar (c : Char) : Bool :=
  c = '\t' || (' ' ≤ c && c ≠ '\x7f')

/-- The text after a line break. -/
def newline? : List Char → Option (List Char)
  | '\n' :: cs => some cs
  | '\r' :: '\n' :: cs => some cs
  | _ => none

/-- The text after spaces and tabs. -/
def skipSpaces (cs : List Char) : List Char :=
  cs.dropWhile isSpace

/-- The text after spaces, tabs and line breaks. -/
def skipBlanks : List Char → List Char
  | ' ' :: cs => skipBlanks cs
  | '\t' :: cs => skipBlanks cs
  | '\n' :: cs => skipBlanks cs
  | '\r' :: '\n' :: cs => skipBlanks cs
  | cs => cs

/-- The text after spaces, tabs, line breaks and comments. -/
def skipFiller (inComment : Bool) : List Char → List Char
  | [] => []
  | '\r' :: '\n' :: cs => skipFiller false cs
  | c :: cs =>
    if c = '\n' then skipFiller false cs
    else if inComment then
      if isCommentChar c then skipFiller true cs else c :: cs
    else if isSpace c then skipFiller false cs
    else if c = '#' then skipFiller true cs
    else c :: cs

/-- The text after the end of a line that may have a comment. The end of the
document ends a line too. -/
def lineEnd? (cs : List Char) : Option (List Char) :=
  let cs := skipSpaces cs
  let cs := match cs with
    | '#' :: comment => comment.dropWhile isCommentChar
    | cs => cs
  if cs.isEmpty then some [] else newline? cs

/-! ## Strings -/

/-- Whether a character stands for itself in a basic string. -/
def isBasicChar (c : Char) : Bool :=
  c = '\t' || (' ' ≤ c && c ≠ '"' && c ≠ '\\' && c ≠ '\x7f')

/-- Whether a character stands for itself in a literal string. -/
def isLiteralChar (c : Char) : Bool :=
  c = '\t' || (' ' ≤ c && c ≠ '\'' && c ≠ '\x7f')

/-- The character of an escape sequence, behind its backslash. -/
def escaped : Scanner Char
  | 'b' :: cs => some ('\x08', cs)
  | 't' :: cs => some ('\t', cs)
  | 'n' :: cs => some ('\n', cs)
  | 'f' :: cs => some ('\x0c', cs)
  | 'r' :: cs => some ('\r', cs)
  | '"' :: cs => some ('"', cs)
  | '\\' :: cs => some ('\\', cs)
  | 'u' :: cs => do
    let (n, cs) ← hex 4 cs
    return (← char? n, cs)
  | 'U' :: cs => do
    let (n, cs) ← hex 8 cs
    return (← char? n, cs)
  | _ => none

/-- The rest of a basic string on one line, put behind what has been read of it in
reverse. -/
def basic (fuel : Nat) (read : List Char) (cs : List Char) : Option (String × List Char) :=
  match fuel, cs with
  | 0, _ => none
  | _, [] => none
  | _ + 1, '"' :: cs => some (String.ofList read.reverse, cs)
  | fuel + 1, '\\' :: cs => do
    let (c, cs) ← escaped cs
    basic fuel (c :: read) cs
  | fuel + 1, c :: cs => if isBasicChar c then basic fuel (c :: read) cs else none

/-- The text after a backslash that ends a line, and after the blanks at the
beginning of the next. -/
def continuation? (cs : List Char) : Option (List Char) :=
  (newline? (skipSpaces cs)).map skipBlanks

/-- What a run of quotes in a string over several lines means: three or more end
the string, and up to two of those beyond three still belong to it. -/
def closing? (quotes : Nat) : Option Nat :=
  if quotes < 3 then none else some (min (quotes - 3) 2)

/-- The rest of a basic string over several lines. -/
def multilineBasic (fuel : Nat) (read : List Char) (cs : List Char) :
    Option (String × List Char) :=
  match fuel, cs with
  | 0, _ => none
  | _, [] => none
  | fuel + 1, '"' :: _ =>
    let quotes := (cs.takeWhile (· = '"')).length
    match closing? quotes with
    | some inside =>
      some (String.ofList (List.replicate inside '"' ++ read).reverse, cs.drop (3 + inside))
    | none => multilineBasic fuel (List.replicate quotes '"' ++ read) (cs.drop quotes)
  | fuel + 1, '\\' :: cs =>
    match continuation? cs with
    | some cs => multilineBasic fuel read cs
    | none => do
      let (c, cs) ← escaped cs
      multilineBasic fuel (c :: read) cs
  | fuel + 1, c :: rest =>
    match newline? cs with
    | some cs => multilineBasic fuel ('\n' :: read) cs
    | none => if isBasicChar c then multilineBasic fuel (c :: read) rest else none

/-- The rest of a literal string over several lines. -/
def multilineLiteral (fuel : Nat) (read : List Char) (cs : List Char) :
    Option (String × List Char) :=
  match fuel, cs with
  | 0, _ => none
  | _, [] => none
  | fuel + 1, '\'' :: _ =>
    let quotes := (cs.takeWhile (· = '\'')).length
    match closing? quotes with
    | some inside =>
      some (String.ofList (List.replicate inside '\'' ++ read).reverse, cs.drop (3 + inside))
    | none => multilineLiteral fuel (List.replicate quotes '\'' ++ read) (cs.drop quotes)
  | fuel + 1, c :: rest =>
    match newline? cs with
    | some cs => multilineLiteral fuel ('\n' :: read) cs
    | none => if isLiteralChar c then multilineLiteral fuel (c :: read) rest else none

/-- A line break right behind the opening quotes does not count. -/
def dropNewline (cs : List Char) : List Char :=
  (newline? cs).getD cs

/-- A literal string on one line, behind its opening quote. -/
def literalString : Scanner String := fun cs =>
  match run isLiteralChar cs with
  | (text, '\'' :: cs) => some (String.ofList text, cs)
  | _ => none

/-- **A string in any of its four forms.** -/
def string : Scanner String
  | '"' :: '"' :: '"' :: cs => multilineBasic (cs.length + 1) [] (dropNewline cs)
  | '"' :: cs => basic (cs.length + 1) [] cs
  | '\'' :: '\'' :: '\'' :: cs => multilineLiteral (cs.length + 1) [] (dropNewline cs)
  | '\'' :: cs => literalString cs
  | _ => none

/-! ## Keys -/

/-- Whether a character may stand in a key without quotes. -/
def isBareChar (c : Char) : Bool :=
  c.isAlphanum || c = '-' || c = '_'

/-- One part of a key. -/
def keyPart : Scanner String
  | '"' :: cs => basic (cs.length + 1) [] cs
  | '\'' :: cs => literalString cs
  | cs => (run1 isBareChar cs).map fun (name, cs) => (String.ofList name, cs)

/-- The parts of a dotted key, and the text after the blanks behind it. -/
def keyParts (fuel : Nat) (cs : List Char) : Option (List String × List Char) :=
  match fuel with
  | 0 => none
  | fuel + 1 => do
    let (part, cs) ← keyPart (skipSpaces cs)
    match skipSpaces cs with
    | '.' :: cs => do
      let (parts, cs) ← keyParts fuel cs
      return (part :: parts, cs)
    | cs => return ([part], cs)

/-- **A key**: the path to its table and its last part. -/
def key : Scanner (List String × String) := fun cs => do
  let (parts, cs) ← keyParts (cs.length + 1) cs
  if nestingLimit ≤ parts.length then none
  else return ((parts.dropLast, ← parts.getLast?), cs)

/-! ## Numbers -/

/-- The rest of a run of digits with single underscores between them. -/
def moreDigits (kind : Char → Bool) : Scanner (List Char)
  | '_' :: c :: cs =>
    if kind c then (moreDigits kind cs).map fun (ds, cs) => (c :: ds, cs) else none
  | c :: cs =>
    if kind c then (moreDigits kind cs).map fun (ds, cs) => (c :: ds, cs)
    else if c = '_' then none
    else some ([], c :: cs)
  | [] => some ([], [])

/-- A run of digits with single underscores between them. -/
def digits (kind : Char → Bool) : Scanner (List Char)
  | c :: cs => if kind c then (moreDigits kind cs).map fun (ds, cs) => (c :: ds, cs) else none
  | [] => none

/-- A sign, if there is one: whether it is a minus. -/
def sign : List Char → Bool × List Char
  | '-' :: cs => (true, cs)
  | '+' :: cs => (false, cs)
  | cs => (false, cs)

/-- The digits of a decimal integer, which has no zero before other digits. -/
def decimalDigits : Scanner (List Char)
  | '0' :: cs => some (['0'], cs)
  | cs => digits Decimal.isDigit cs

/-- An integer if it fits 64 bits with a sign. -/
def int64? (i : Int) : Option Data :=
  if -0x8000000000000000 ≤ i ∧ i < 0x8000000000000000 then some (.integer i) else none

/-- An integer in base sixteen, eight or two, behind the letter of its base. -/
def radix (bits : Nat) (kind : Char → Bool) : Scanner Data := fun cs => do
  let (ds, cs) ← digits kind cs
  let n := ds.foldl (fun n d => n <<< bits ||| (hexValue? d).getD 0) 0
  return (← int64? n, cs)

/-- The digits of a fraction, none if there is no point. -/
def fraction : Scanner (List Char)
  | '.' :: cs => digits Decimal.isDigit cs
  | cs => some ([], cs)

/-- A power of ten, if there is one. -/
def power : Scanner (Option Int) := fun cs =>
  match cs with
  | 'e' :: cs | 'E' :: cs => do
    let (negative, cs) := sign cs
    let (ds, cs) ← digits Decimal.isDigit cs
    let n : Int := Decimal.toNat ds
    return (some (if negative then -n else n), cs)
  | cs => some (none, cs)

/-- The float of a sign and a magnitude. A magnitude beyond all floats is refused,
unless it is negative. -/
def signed (negative : Bool) (x : Float) : Option Data :=
  if negative then some (.real (-x)) else if x.isInf then none else some (.real x)

/-- A decimal number: an integer, or a float if it has a fraction or a power. -/
def decimal : Scanner Data := fun cs => do
  let (negative, cs) := sign cs
  match cs with
  | 'i' :: 'n' :: 'f' :: cs =>
    return (.real (if negative then -1.0 / 0.0 else 1.0 / 0.0), cs)
  | 'n' :: 'a' :: 'n' :: cs => return (.real (0.0 / 0.0), cs)
  | cs => do
    let (whole, cs) ← decimalDigits cs
    let (places, cs) ← fraction cs
    let (shift, cs) ← power cs
    if places.isEmpty && shift.isNone then
      let n : Int := Decimal.toNat whole
      return (← int64? (if negative then -n else n), cs)
    else
      let x := Decimal.toFloat (Decimal.toNat (whole ++ places))
        (shift.getD 0 - (places.length : Int))
      return (← signed negative x, cs)

/-- **A number** in any of its forms. -/
def number : Scanner Data
  | '0' :: 'x' :: cs => radix 4 (fun c => (hexValue? c).isSome) cs
  | '0' :: 'o' :: cs => radix 3 (fun c => '0' ≤ c && c ≤ '7') cs
  | '0' :: 'b' :: cs => radix 1 (fun c => c = '0' || c = '1') cs
  | cs => decimal cs

/-! ## Dates and times -/

/-- A number of fixed width within bounds. -/
def fixed (width low high : Nat) : Scanner Nat := fun cs =>
  let ds := cs.take width
  let n := Decimal.toNat ds
  if ds.length = width && ds.all Decimal.isDigit && decide (low ≤ n) && decide (n ≤ high)
  then some (n, cs.drop width) else none

/-- The number of days of a month. -/
def daysIn (year month : Nat) : Nat :=
  if month = 2 then
    if year % 4 = 0 && (year % 100 ≠ 0 || year % 400 = 0) then 29 else 28
  else if month = 4 || month = 6 || month = 9 || month = 11 then 30
  else 31

/-- The text after a date. -/
def date? (cs : List Char) : Option (List Char) := do
  let (year, cs) ← fixed 4 0 9999 cs
  let (month, cs) ← fixed 2 1 12 (← literal ['-'] cs)
  let (_, cs) ← fixed 2 1 (daysIn year month) (← literal ['-'] cs)
  return cs

/-- The text after a time of day. -/
def time? (cs : List Char) : Option (List Char) := do
  let (_, cs) ← fixed 2 0 23 cs
  let (_, cs) ← fixed 2 0 59 (← literal [':'] cs)
  let (_, cs) ← fixed 2 0 60 (← literal [':'] cs)
  match cs with
  | '.' :: cs => (run1 Decimal.isDigit cs).map Prod.snd
  | cs => return cs

/-- The text after an offset, if there is one. -/
def offset? (cs : List Char) : Option (List Char) :=
  match cs with
  | 'Z' :: cs | 'z' :: cs => some cs
  | '+' :: cs | '-' :: cs => do
    let (_, cs) ← fixed 2 0 23 cs
    let (_, cs) ← fixed 2 0 59 (← literal [':'] cs)
    return cs
  | cs => some cs

/-- The text after a date, a time or both. A blank may stand between the two, but
need not announce a time. -/
def moment? (cs : List Char) : Option (List Char) :=
  match date? cs with
  | none => time? cs
  | some cs =>
    match cs with
    | 'T' :: cs | 't' :: cs => (time? cs).bind offset?
    | ' ' :: rest =>
      match time? rest with
      | some rest => offset? rest
      | none => some cs
    | cs => some cs

/-- What a date or a time is as plain data: nothing is made of one, and where a
record is expected it passes for one without any of the expected fields. -/
def moment : Data := .record [("datetime", .opaque_)]

/-! ## Values -/

/-- A value that has no parts. -/
def scalar : Scanner Data := fun cs =>
  match cs with
  | [] => none
  | c :: _ =>
    if c = '"' || c = '\'' then (string cs).map fun (s, cs) => (.text s, cs)
    else if c = 't' then (literal ['t', 'r', 'u', 'e'] cs).map fun cs => (.boolean true, cs)
    else if c = 'f' then
      (literal ['f', 'a', 'l', 's', 'e'] cs).map fun cs => (.boolean false, cs)
    else
      match moment? cs with
      | some cs => some (moment, cs)
      | none => number cs

mutual

/-- **A value**, at most `depth` arrays and inline tables deep. -/
def value (fuel depth : Nat) (cs : List Char) : Option (Item × List Char) :=
  match fuel, depth, cs with
  | 0, _, _ => none
  | fuel + 1, depth + 1, '[' :: cs => do
    let (items, cs) ← elements fuel depth cs
    return (.array items, cs)
  | fuel + 1, depth + 1, '\x7b' :: cs => do
    let (assignments, cs) ← pairs fuel depth true cs
    let entries ← assignAll assignments []
    return (.table .inlined entries, cs)
  | _, 0, '[' :: _ => none
  | _, 0, '\x7b' :: _ => none
  | _, _, cs => (scalar cs).map fun (d, cs) => (.value d, cs)

/-- The elements of an array up to its closing bracket. A comma may stand behind
the last. -/
def elements (fuel depth : Nat) (cs : List Char) : Option (List Item × List Char) :=
  match fuel with
  | 0 => none
  | fuel + 1 =>
    match skipFiller false cs with
    | ']' :: cs => some ([], cs)
    | cs => do
      let (item, cs) ← value fuel depth cs
      match skipFiller false cs with
      | ',' :: cs => do
        let (items, cs) ← elements fuel depth cs
        return (item :: items, cs)
      | ']' :: cs => return ([item], cs)
      | _ => none

/-- The assignments of an inline table up to its closing brace, where `first` says
that none has been read yet. No comma may stand behind the last. -/
def pairs (fuel depth : Nat) (first : Bool) (cs : List Char) :
    Option (List Assignment × List Char) :=
  match fuel with
  | 0 => none
  | fuel + 1 =>
    match first, skipSpaces cs with
    | true, '\x7d' :: cs => some ([], cs)
    | _, cs => do
      let ((path, key), cs) ← key cs
      let cs ← literal ['='] cs
      let (item, cs) ← value fuel depth (skipSpaces cs)
      match skipSpaces cs with
      | ',' :: cs => do
        let (rest, cs) ← pairs fuel depth false cs
        return (⟨path, key, item⟩ :: rest, cs)
      | '\x7d' :: cs => return ([⟨path, key, item⟩], cs)
      | _ => none

end

/-! ## Lines -/

/-- An assignment on a line of its own. -/
def assignment : Scanner Assignment := fun cs => do
  let ((path, key), cs) ← key cs
  let cs ← literal ['='] cs
  let (item, cs) ← value (2 * cs.length + 1) (nestingLimit - 1) (skipSpaces cs)
  return (⟨path, key, item⟩, ← lineEnd? cs)

/-- A header, without the lines under it. -/
def header : Scanner Section
  | '[' :: '[' :: cs => do
    let ((path, key), cs) ← key cs
    let cs ← literal [']', ']'] cs
    return (⟨true, path, key, []⟩, ← lineEnd? cs)
  | '[' :: cs => do
    let ((path, key), cs) ← key cs
    let cs ← literal [']'] cs
    return (⟨false, path, key, []⟩, ← lineEnd? cs)
  | _ => none

/-- The lines of a document: the assignments before the first header, and the
sections after them. -/
def lines (fuel : Nat) (cs : List Char) : Option (List Assignment × List Section) :=
  match fuel with
  | 0 => none
  | fuel + 1 =>
    match skipSpaces cs with
    | [] => some ([], [])
    | '[' :: cs => do
      let (opened, cs) ← header ('[' :: cs)
      let (under, later) ← lines fuel cs
      return ([], { opened with assignments := under } :: later)
    | cs =>
      match lineEnd? cs with
      | some cs => lines fuel cs
      | none => do
        let (a, cs) ← assignment cs
        let (rest, later) ← lines fuel cs
        return (a :: rest, later)

/-- **The plain data of a document**, if its text is one. A byte order mark at the
beginning does not count. -/
def read (text : List Char) : Option Data := do
  let text := match text with
    | '\ufeff' :: cs => cs
    | cs => cs
  let (top, sections) ← lines (text.length + 1) text
  let entries ← contents top sections
  return .record (entriesToData entries)

end Toml

end FormulaSynth
