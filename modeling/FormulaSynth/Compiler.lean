import FormulaSynth.Expr.Fold
import FormulaSynth.Formula.Reading
import FormulaSynth.Vocabulary
/-!
# Compiling a formula

Turning the text of a formula into a tree. Once the text is read, the names of
its phrase are looked up in a vocabulary, its numbers are read and its calls are
checked; with folding on, every node is folded as it is built.

Operands are built from left to right and all of them are built, so the fault
that is reported is the first in the text, and a draw from the random source
happens where the text has it even if an operand before it was at fault. The
arguments of a call are built only up to the first fault among them, and not at
all if there is no such function.
-/

namespace FormulaSynth

/-- **What a formula is compiled with**: its vocabulary, and whether to fold. -/
structure Compiler where
  vocabulary : Vocabulary := {}
  folding : Bool := true

namespace Compiler

/-- The constant a number stands for, if it fits a word. -/
def number (p : Position) (text : List Char) : Except Fault Expr :=
  let value := Decimal.toInt text
  if -0x80000000 ≤ value ∧ value < 0x80000000 then
    .ok (.const (Int32.ofInt value))
  else
    .error ⟨.numberOutOfRange (String.ofList text), p⟩

/-- The variable of a name, if the vocabulary has it. -/
def variable_ (c : Compiler) (p : Position) (name : String) : Except Fault Expr :=
  if c.vocabulary.variableNames.contains name then .ok (.var name)
  else .error ⟨.unknownVariable name, p⟩

/-- An operation on two operands. -/
def binary (c : Compiler) (op : Operation) (l r : Expr) : Expr :=
  if c.folding then Expr.foldBinary op l r else .binary op l r

/-- A call on arguments. -/
def call (c : Compiler) (name : String) (f : Builtin) (args : List Expr) : Evaluation Expr :=
  if c.folding then Expr.foldCall name f args else pure (.call name f args)

/-- A call on arguments, where an evaluation that cannot be carried out is a fault
without a place. -/
def callOrFault (c : Compiler) (name : String) (f : Builtin) (args : List Expr) :
    StateM Random (Except Fault Expr) := do
  match ← (c.call name f args).run with
  | .ok e => pure (.ok e)
  | .error e => pure (.error ⟨.unevaluable e.message, ⟨0, 0⟩⟩)

mutual

/-- **The tree of a phrase**, or its first fault. -/
def build (c : Compiler) : Phrase → StateM Random (Except Fault Expr)
  | .number p text => pure (number p text)
  | .var p name => pure (c.variable_ p name)
  | .group _ inner => c.build inner
  | .binary op _ l r => do
    let l ← c.build l
    let r ← c.build r
    pure (do return c.binary op (← l) (← r))
  | .call p name args =>
    match c.vocabulary.function? name with
    | none => pure (.error ⟨.unknownFunction name, p⟩)
    | some f => do
      match ← c.buildAll args with
      | .error fault => pure (.error fault)
      | .ok built =>
        if f.arity.accepts built.length then c.callOrFault name f built
        else pure (.error ⟨.argumentCount name built.length, p⟩)

/-- The trees of phrases, up to the first that is at fault. -/
def buildAll (c : Compiler) : List Phrase → StateM Random (Except Fault (List Expr))
  | [] => pure (.ok [])
  | phrase :: rest => do
    match ← c.build phrase with
    | .error fault => pure (.error fault)
    | .ok e =>
      match ← c.buildAll rest with
      | .error fault => pure (.error fault)
      | .ok es => pure (.ok (e :: es))

end

/-- **The tree of a text**, or the reason why there is none. -/
def parse (c : Compiler) (text : String) : StateM Random (Except Fault Expr) :=
  match Phrase.ofText text.toList with
  | .error fault => pure (.error fault)
  | .ok phrase => c.build phrase

end Compiler

end FormulaSynth
