import FormulaSynth.Text.Position
/-!
# Nesting

A formula is not looked at any closer while more than 256 of its parentheses are
open at once, which bounds the work of reading it before any of it is done. The
count takes in the parentheses of calls and leaves comments out. For this count
a line comment runs up to the next line feed, and a block comment that is never
closed runs to the end of the text. A closing parenthesis without an opening one
counts for nothing.
-/

namespace FormulaSynth

namespace Nesting

/-- The most parentheses a formula may have open at once. -/
def limit : Nat := 256

/-- What a character of a text belongs to. -/
inductive Region where
  | formula | lineComment | blockComment
  deriving DecidableEq, Repr

/-- **The place where one parenthesis too many opens**, if there is one, in a text
that continues from place `p` with `depth` parentheses open. -/
def excessFrom? (region : Region) (depth : Nat) (p : Position) : List Char → Option Position
  | [] => none
  | c :: rest =>
    match region with
    | .lineComment =>
      excessFrom? (if c = '\n' then .formula else .lineComment) depth (p.after c) rest
    | .blockComment =>
      match c, rest with
      | '*', '/' :: rest => excessFrom? .formula depth ((p.after '*').after '/') rest
      | c, rest => excessFrom? .blockComment depth (p.after c) rest
    | .formula =>
      match c, rest with
      | '/', '/' :: rest => excessFrom? .lineComment depth ((p.after '/').after '/') rest
      | '/', '*' :: rest => excessFrom? .blockComment depth ((p.after '/').after '*') rest
      | '(', rest =>
        if depth < limit then excessFrom? .formula (depth + 1) (p.after '(') rest
        else some p
      | ')', rest => excessFrom? .formula (depth - 1) (p.after ')') rest
      | c, rest => excessFrom? .formula depth (p.after c) rest

/-- **The place where one parenthesis too many opens in a text.** -/
def excess? (text : List Char) : Option Position :=
  excessFrom? .formula 0 {} text

end Nesting

end FormulaSynth
