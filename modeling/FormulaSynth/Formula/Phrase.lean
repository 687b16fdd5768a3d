import FormulaSynth.Operation
import FormulaSynth.Text.Position
/-!
# Phrases

What reading a formula yields before its names and numbers are looked at: a tree
whose parts know their places in the text, with parentheses kept.

The tree grows from left to right. `Phrase.append` puts one more operator and
operand at the end of a tree: the operator takes as its left operand the largest
part at the end of the tree that it does not bind tighter than, so that tighter
operators collect their operands first and equally tight ones associate to the
left. It looks only along the right edge of the tree, which is never longer than
the number of levels.

The size of a formula is counted in grammatical units, `Phrase.units`, listed in
the order they begin in the text.
-/

namespace FormulaSynth

/-- **A part of a formula, in its place.** An operation's place is that of its
operator. -/
inductive Phrase where
  | number (position : Position) (text : List Char)
  | var (position : Position) (name : String)
  | call (position : Position) (name : String) (args : List Phrase)
  | group (position : Position) (inner : Phrase)
  | binary (op : Operation) (position : Position) (lhs rhs : Phrase)


namespace Phrase

/-- **A tree with one more operator and operand at its end.** -/
def append (t : Phrase) (op : Operation) (p : Position) (operand : Phrase) : Phrase :=
  match t with
  | binary o q l r =>
    if o.level < op.level then binary o q l (r.append op p operand)
    else binary op p (binary o q l r) operand
  | t => binary op p t operand

/-- The place where a phrase begins. -/
def start : Phrase → Position
  | number p _ | var p _ | call p _ _ | group p _ => p
  | binary _ _ l _ => l.start

/-! ## Units

Every number and every operator is a unit. A variable is two, itself and its
name, and a call is three, itself, the function and its name. Every expression is
a unit too: the formula as a whole, the inside of a group, and each argument. -/

mutual

/-- **The places of the units of a phrase, in order**, put before the places that
come later. -/
def unitsBefore (later : List Position) : Phrase → List Position
  | number p _ => p :: later
  | var p _ => p :: p :: later
  | call p _ args => p :: p :: p :: argumentUnitsBefore later args
  | group _ inner => inner.start :: inner.unitsBefore later
  | binary _ p l r => l.unitsBefore (p :: r.unitsBefore later)

/-- The places of the units of arguments, put before the places that come later. -/
def argumentUnitsBefore (later : List Position) : List Phrase → List Position
  | [] => later
  | arg :: rest => arg.start :: arg.unitsBefore (argumentUnitsBefore later rest)

end

/-- **The places of the units of a whole formula.** The formula as a text is a
unit, which begins with the text; so is its expression, and so is the end. -/
def units (t : Phrase) (ending : Position) : List Position :=
  {} :: t.start :: t.unitsBefore [ending]

/-- The most units a formula may have. -/
def unitLimit : Nat := 4096

/-- **The place of the first unit too many**, if there is one. -/
def excessUnit? (t : Phrase) (ending : Position) : Option Position :=
  (t.units ending)[unitLimit]?

end Phrase

end FormulaSynth
