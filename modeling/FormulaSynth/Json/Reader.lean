import FormulaSynth.Json.Number
/-!
# Reading JSON

From the text of a document to its plain data. The text holds one value with
nothing around it but white space.

Half of a surrogate pair can be written in a string by its number, but no text is
made of such halves: a string with one of them is a value that nothing can be made
of, and so is an object with such a string for a key.

Values are read with a bound on the recursion that the length of the text
supplies. No two steps of the recursion in a row leave the text as it is, so the
bound is never what ends it.
-/

namespace FormulaSynth

namespace Json

namespace Reader

open Scanner

/-- Whether a character may stand between the parts of a document. -/
def isSpace (c : Char) : Bool :=
  c = ' ' || c = '\n' || c = '\t' || c = '\r'

/-- The text after white space. -/
def skipSpace (cs : List Char) : List Char :=
  cs.dropWhile isSpace

/-! ## Strings -/

/-- What an escape of one letter stands for. -/
def letterEscape? : Char → Option Char
  | '"' => some '"'
  | '\\' => some '\\'
  | '/' => some '/'
  | 'b' => some '\x08'
  | 'f' => some '\x0c'
  | 'n' => some '\n'
  | 'r' => some '\r'
  | 't' => some '\t'
  | _ => none

/-- The code points of a string up to its closing quote, where the halves of
surrogate pairs stand for themselves. -/
def codePoints : List Char → Option (List Nat × List Char)
  | [] => none
  | '"' :: cs => some ([], cs)
  | '\\' :: 'u' :: a :: b :: c :: d :: cs => do
    let (n, _) ← hex 4 [a, b, c, d]
    let (ns, cs) ← codePoints cs
    return (n :: ns, cs)
  | '\\' :: e :: cs => do
    let c ← letterEscape? e
    let (ns, cs) ← codePoints cs
    return (c.toNat :: ns, cs)
  | c :: cs =>
    if c < ' ' || c = '\\' then none
    else do
      let (ns, cs) ← codePoints cs
      return (c.toNat :: ns, cs)

/-- Whether a number is the first half of a surrogate pair. -/
def isLead (n : Nat) : Bool := 0xD800 ≤ n && n < 0xDC00

/-- Whether a number is the second half of a surrogate pair. -/
def isTrail (n : Nat) : Bool := 0xDC00 ≤ n && n < 0xE000

/-- The characters of code points, if the halves of surrogate pairs among them come
in pairs. -/
def characters? : List Nat → Option (List Char)
  | [] => some []
  | n :: m :: ns =>
    if isLead n && isTrail m then do
      let c ← char? (0x10000 + (n - 0xD800) * 0x400 + (m - 0xDC00))
      return c :: (← characters? ns)
    else do
      let c ← char? n
      return c :: (← characters? (m :: ns))
  | [n] => do return [← char? n]

/-- A string behind its opening quote: `none` where no text is made of it. -/
def string : Scanner (Option String) := fun cs => do
  let (ns, cs) ← codePoints cs
  return ((characters? ns).map String.ofList, cs)

/-! ## Values -/

/-- The record of fields, if every key is a text. -/
def recordOf (fields : List (Option String × Data)) : Data :=
  match fields.mapM fun (key, d) => key.map fun key => (key, d) with
  | some fields => .record fields
  | none => .opaque_

mutual

/-- **A value**, behind white space. -/
def value (fuel : Nat) (cs : List Char) : Option (Data × List Char) :=
  match fuel, skipSpace cs with
  | 0, _ => none
  | _, 'n' :: 'u' :: 'l' :: 'l' :: cs => some (.null, cs)
  | _, 't' :: 'r' :: 'u' :: 'e' :: cs => some (.boolean true, cs)
  | _, 'f' :: 'a' :: 'l' :: 's' :: 'e' :: cs => some (.boolean false, cs)
  | _, '"' :: cs => do
    let (s, cs) ← string cs
    return ((s.map Data.text).getD .opaque_, cs)
  | fuel + 1, '[' :: cs =>
    match skipSpace cs with
    | ']' :: cs => some (.list [], cs)
    | cs => do
      let (items, cs) ← items fuel cs
      return (.list items, cs)
  | fuel + 1, '\x7b' :: cs =>
    match skipSpace cs with
    | '\x7d' :: cs => some (.record [], cs)
    | cs => do
      let (fields, cs) ← fields fuel cs
      return (recordOf fields, cs)
  | _, cs => do
    let (n, cs) ← Number.scan cs
    return (n.value, cs)

/-- The items of a list, of which there is at least one, up to the closing
bracket. -/
def items (fuel : Nat) (cs : List Char) : Option (List Data × List Char) :=
  match fuel with
  | 0 => none
  | fuel + 1 => do
    let (d, cs) ← value fuel cs
    match skipSpace cs with
    | ',' :: cs => do
      let (ds, cs) ← items fuel cs
      return (d :: ds, cs)
    | ']' :: cs => return ([d], cs)
    | _ => none

/-- The fields of a record, of which there is at least one, up to the closing
brace. -/
def fields (fuel : Nat) (cs : List Char) :
    Option (List (Option String × Data) × List Char) :=
  match fuel with
  | 0 => none
  | fuel + 1 => do
    let (key, cs) ← string (← literal ['"'] (skipSpace cs))
    let (d, cs) ← value fuel (← literal [':'] (skipSpace cs))
    match skipSpace cs with
    | ',' :: cs => do
      let (rest, cs) ← fields fuel cs
      return ((key, d) :: rest, cs)
    | '\x7d' :: cs => return ([(key, d)], cs)
    | _ => none

end

end Reader

/-- **The plain data of a document.** -/
def read (cs : List Char) : Option Data := do
  let (d, cs) ← Reader.value (2 * cs.length + 2) cs
  if (Reader.skipSpace cs).isEmpty then some d else none

end Json

end FormulaSynth
