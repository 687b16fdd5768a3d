import FormulaSynth.Decimal.Integer
import FormulaSynth.Operation
import FormulaSynth.Text.Position
/-!
# The tokens of a formula

A formula is numbers, names, operators, parentheses and commas, with layout
anywhere between them: blanks, line comments and block comments. A line comment
runs up to the next line feed or carriage return, a block comment up to the first
end mark.

Two things depend on more than the next character. A minus sign belongs to the
digits after it only where an operand is expected, so `t -1` is a difference
while `t * -1` is a product with a negative number. And the opening mark of a
block comment that is never closed opens no comment: it is a division sign and a
multiplication sign, which never stand next to each other in a formula, so there
is no need to look at what follows.
-/

namespace FormulaSynth

/-- **A token of a formula.** A character that begins no token is kept as it is. -/
inductive Token where
  | number (text : List Char)
  | name (text : String)
  | operator (op : Operation)
  | opening
  | closing
  | comma
  | other (c : Char)
  deriving DecidableEq, Repr

namespace Token

/-- Whether an operand has to come next after a token. It has not after a token
that ends an operand itself. -/
def wantsOperand : Token → Bool
  | number _ | name _ | closing => false
  | operator _ | opening | comma | other _ => true

/-! ## Characters -/

/-- Whether a character is a blank: space, tab, carriage return or line feed. -/
def isBlank (c : Char) : Bool :=
  c = ' ' || c = '\t' || c = '\r' || c = '\n'

/-- Whether a character can begin a name: a letter of the basic alphabet or an
underscore. -/
def isNameStart (c : Char) : Bool :=
  ('a' ≤ c && c ≤ 'z') || ('A' ≤ c && c ≤ 'Z') || c = '_'

/-- Whether a character can stand in a name after its beginning. -/
def isNameRest (c : Char) : Bool :=
  isNameStart c || Decimal.isDigit c

/-- Whether a character ends a line comment. -/
def isLineEnd (c : Char) : Bool :=
  c = '\n' || c = '\r'

/-- The length of the rest of a block comment, its end mark included, if it has
one. The characters already passed are counted in. -/
def commentLength? (passed : Nat) : List Char → Option Nat
  | [] => none
  | '*' :: '/' :: _ => some (passed + 2)
  | _ :: rest => commentLength? (passed + 1) rest

/-- The token of a character that stands alone. -/
def single : Char → Token
  | '^' => operator .xor
  | '&' => operator .and
  | '|' => operator .or
  | '+' => operator .add
  | '-' => operator .subtract
  | '*' => operator .multiply
  | '/' => operator .divide
  | '%' => operator .modulo
  | '(' => opening
  | ')' => closing
  | ',' => comma
  | c => other c

/-! ## Pieces -/

/-- What a text begins with, and how many characters it takes beyond the first. -/
inductive Piece where
  | layout (more : Nat)
  | token (t : Token) (more : Nat)
  | unclosedComment
  deriving DecidableEq, Repr

/-- **The first piece of a text** that begins with `c`, where `signed` says
whether a minus sign may belong to a number. -/
def piece (signed : Bool) (c : Char) (rest : List Char) : Piece :=
  if isBlank c then .layout 0
  else if c = '/' then
    match rest with
    | '/' :: comment => .layout (1 + (comment.takeWhile fun d => !isLineEnd d).length)
    | '*' :: comment =>
      match commentLength? 1 comment with
      | some more => .layout more
      | none => .unclosedComment
    | _ => .token (single c) 0
  else if Decimal.isDigit c || (signed && c = '-' && rest.head?.any Decimal.isDigit) then
    let digits := rest.takeWhile Decimal.isDigit
    .token (number (c :: digits)) digits.length
  else if isNameStart c then
    let letters := rest.takeWhile isNameRest
    .token (name (String.ofList (c :: letters))) letters.length
  else if c = '<' && rest.head? = some '<' then .token (operator .shiftLeft) 1
  else if c = '>' && rest.head? = some '>' then .token (operator .shiftRight) 1
  else .token (single c) 0

end Token

/-- **A token in its place.** -/
structure Lexeme where
  token : Token
  position : Position
  deriving DecidableEq, Repr

namespace Lexeme

/-- **The tokens of a text from a place on.** The first `skip` characters belong
to a piece already dealt with, and `signed` says whether an operand is expected. -/
def scan (signed : Bool) (skip : Nat) (p : Position) : List Char → List Lexeme
  | [] => []
  | c :: rest =>
    match skip with
    | skip + 1 => scan signed skip (p.after c) rest
    | 0 =>
      match Token.piece signed c rest with
      | .layout more => scan signed more (p.after c) rest
      | .token t more => ⟨t, p⟩ :: scan t.wantsOperand more (p.after c) rest
      | .unclosedComment =>
        [⟨.operator .divide, p⟩, ⟨.operator .multiply, p.after c⟩]

/-- **The tokens of a text.** A formula begins with an operand. -/
def ofText (text : List Char) : List Lexeme :=
  scan true 0 {} text

end Lexeme

end FormulaSynth
