import FormulaSynth.Diagnostic
import FormulaSynth.Text.Position
/-!
# Faults

The reasons a formula can be rejected for. Reading stops at the first: the
parentheses are counted, then the tokens are read, then the size is looked at,
and last of all come the names, numbers and argument counts.

A fault is a cause and a place. What a user is told, the wording and the name of
the rule that failed, follows from the cause.
-/

namespace FormulaSynth

/-- **What can come next** where a token does not fit. -/
inductive Expected where
  /-- An expression has to begin. -/
  | expression
  /-- An operand has to follow an operator. -/
  | operand
  /-- An operator can follow; so can the rest of what a parenthesis opened. -/
  | operator
  /-- An operator can follow, or the formula can end. -/
  | operatorOrEnd
  deriving DecidableEq, Repr

namespace Expected

/-- The names of the operators, as a list for a sentence. -/
def operators : String :=
  "xor, and, or, add, subtract, multiply, divide, modulo, shift_left, or shift_right"

/-- The things expected, as a list for a sentence. -/
def description : Expected → String
  | expression => "expression"
  | operand => "number or identifier"
  | operator => operators
  | operatorOrEnd => "EOI, " ++ operators

/-- The first of the things expected. -/
def rule : Expected → String
  | expression => "expression"
  | operand => "number"
  | operator => "xor"
  | operatorOrEnd => "EOI"

end Expected

/-- **Why a formula is rejected.** -/
inductive Cause where
  | tooDeep
  | unexpected (expected : Expected)
  | tooLong
  | numberOutOfRange (text : String)
  | unknownVariable (name : String)
  | unknownFunction (name : String)
  | argumentCount (name : String) (count : Nat)
  /-- The formula could not be folded, which no formula that was read brings about. -/
  | unevaluable (message : String)
  deriving DecidableEq, Repr

namespace Cause

/-- The sentence a user is told. -/
def message : Cause → String
  | tooDeep => "Formula is nested too deeply."
  | unexpected expected => s!"Syntax error: expected {expected.description}."
  | tooLong => "Formula is too long."
  | numberOutOfRange text => s!"Number {text} is out of range."
  | unknownVariable name => s!"Unknown variable {name}."
  | unknownFunction name => s!"Unknown function {name}."
  | argumentCount name count =>
    s!"The {name} function has an inappropriate number of parameters: {count}."
  | unevaluable message => message

/-- The name of the rule that failed. -/
def rule : Cause → String
  | tooDeep | tooLong => "expression"
  | unexpected expected => expected.rule
  | numberOutOfRange _ => "number"
  | unknownVariable _ => "variable"
  | unknownFunction _ => "function_name"
  | argumentCount _ _ => "function_call"
  | unevaluable _ => "input"

end Cause

/-- **A cause in its place.** -/
structure Fault where
  cause : Cause
  position : Position
  deriving DecidableEq, Repr

namespace Fault

/-- What a user is told of a fault. -/
def diagnostic (f : Fault) : Diagnostic where
  line := f.position.line
  column := f.position.column
  message := f.cause.message
  rule := f.cause.rule

end Fault

end FormulaSynth
