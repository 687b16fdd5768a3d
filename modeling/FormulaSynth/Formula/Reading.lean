import FormulaSynth.Formula.Fault
import FormulaSynth.Formula.Nesting
import FormulaSynth.Formula.Phrase
import FormulaSynth.Formula.Token
/-!
# Reading a formula

A formula is read token by token with a stack of open parentheses, and without
ever going back. The state of the reading says what can come next, so the first
token that does not fit is the place of the fault, and the state it does not fit
is the reason.

A name is a function's name if a parenthesis follows and a variable if not, which
only the next token tells. Until then the state is that a name has been read.
-/

namespace FormulaSynth

namespace Reading

/-- An operator whose right operand has not been read yet, and what stands to its
left. -/
structure Pending where
  lhs : Phrase
  op : Operation
  position : Position

/-- An operand in the place where it was expected: on its own, or behind an
operator. -/
def attach (before : Option Pending) (operand : Phrase) : Phrase :=
  match before with
  | none => operand
  | some b => b.lhs.append b.op b.position operand

/-- What an open parenthesis opened: a group, or the arguments of a call. The
arguments read so far stand last first. -/
inductive Opener where
  | group
  | call (name : String) (read : List Phrase)

/-- An open parenthesis: what it opened, where that begins, and what stands before
it in the expression around it. -/
structure Frame where
  opener : Opener
  position : Position
  before : Option Pending

/-- **Where a reading stands**, with the open parentheses, innermost first. -/
inductive State where
  /-- An operand is wanted, behind an operator if one is pending. -/
  | wanting (before : Option Pending) (open_ : List Frame)
  /-- A name has been read where an operand was wanted. -/
  | named (name : String) (position : Position) (before : Option Pending)
      (open_ : List Frame)
  /-- An expression has been read that may continue or end. -/
  | holding (phrase : Phrase) (open_ : List Frame)

namespace State

/-- The state before the first token. -/
def initial : State := wanting none []

/-- **What can come next.** -/
def expected : State → Expected
  | wanting none _ => .expression
  | wanting (some _) _ => .operand
  | named _ _ _ [] | holding _ [] => .operatorOrEnd
  | named _ _ _ (_ :: _) | holding _ (_ :: _) => .operator

/-- The state after a token where an operand is wanted, if the token fits. -/
def operand? (before : Option Pending) (open_ : List Frame) (t : Lexeme) : Option State :=
  match t.token, before, open_ with
  | .number text, _, _ => some (holding (attach before (.number t.position text)) open_)
  | .name name, _, _ => some (named name t.position before open_)
  | .opening, _, _ => some (wanting none (⟨.group, t.position, before⟩ :: open_))
  -- a call without arguments, closed right after it was opened
  | .closing, none, ⟨.call name [], p, outer⟩ :: rest =>
    some (holding (attach outer (.call p name [])) rest)
  | _, _, _ => none

/-- The state after a token behind a complete expression, if the token fits. -/
def continue? (phrase : Phrase) (open_ : List Frame) (t : Lexeme) : Option State :=
  match t.token, open_ with
  | .operator op, _ => some (wanting (some ⟨phrase, op, t.position⟩) open_)
  | .comma, ⟨.call name read, p, outer⟩ :: rest =>
    some (wanting none (⟨.call name (phrase :: read), p, outer⟩ :: rest))
  | .closing, ⟨.group, p, outer⟩ :: rest =>
    some (holding (attach outer (.group p phrase)) rest)
  | .closing, ⟨.call name read, p, outer⟩ :: rest =>
    some (holding (attach outer (.call p name (phrase :: read).reverse)) rest)
  | _, _ => none

/-- **The state after a token**, if the token fits. -/
def next? (s : State) (t : Lexeme) : Option State :=
  match s with
  | wanting before open_ => operand? before open_ t
  | holding phrase open_ => continue? phrase open_ t
  | named name p before open_ =>
    match t.token with
    | .opening => some (wanting none (⟨.call name [], p, before⟩ :: open_))
    | _ => continue? (attach before (.var p name)) open_ t

/-- **The phrase a reading has arrived at**, if the formula can end here. -/
def phrase? : State → Option Phrase
  | holding phrase [] => some phrase
  | named name p before [] => some (attach before (.var p name))
  | _ => none

/-- The fault of a text that does not continue as it has to. -/
def fault (s : State) (p : Position) : Fault :=
  ⟨.unexpected s.expected, p⟩

/-- **The phrase read from a state on**, where the text ends at `ending`. -/
def run (ending : Position) (s : State) : List Lexeme → Except Fault Phrase
  | [] =>
    match s.phrase? with
    | some phrase => .ok phrase
    | none => .error (s.fault ending)
  | t :: rest =>
    match s.next? t with
    | some s => run ending s rest
    | none => .error (s.fault t.position)

end State

end Reading

/-- **A formula read from its text**: its parentheses counted, its tokens put
together, its size looked at. -/
def Phrase.ofText (text : List Char) : Except Fault Phrase :=
  match Nesting.excess? text with
  | some p => .error ⟨.tooDeep, p⟩
  | none => do
    let ending := Position.past {} text
    let phrase ← Reading.State.initial.run ending (Lexeme.ofText text)
    match phrase.excessUnit? ending with
    | some p => .error ⟨.tooLong, p⟩
    | none => .ok phrase

end FormulaSynth
