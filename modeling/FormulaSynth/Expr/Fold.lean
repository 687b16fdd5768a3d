import FormulaSynth.Expr.Eval
/-!
# Folding

Building a tree, whatever can be computed already is computed: an operation on
two constants becomes its value, a call on constants becomes its value, and some
operations on one constant become one of their operands or zero. A folded tree
evaluates like the one it was folded from.

A call without arguments has only constant arguments, so folding replaces
`rand()` by the one value drawn when the formula is read.
-/

namespace FormulaSynth

namespace Expr

/-- Whether a tree is the constant zero. -/
def isZero (e : Expr) : Bool :=
  e.constant? == some 0

/-- Whether a tree is a constant that no shift moves by. -/
def isNoShift (e : Expr) : Bool :=
  e.constant?.any fun v => Operation.shiftAmount v == 0

/-- **What an operation with at most one constant operand simplifies to**, if an
identity applies: zero is neutral or absorbing, and a shift by nothing, or of
nothing, does nothing. Division by zero is zero, so zero absorbs there from both
sides. -/
def identity? (op : Operation) (l r : Expr) : Option Expr :=
  match op with
  | .add | .or | .xor =>
    if l.isZero then some r else if r.isZero then some l else none
  | .subtract =>
    if r.isZero then some l else none
  | .multiply | .and | .divide | .modulo =>
    if l.isZero || r.isZero then some (const 0) else none
  | .shiftLeft | .shiftRight =>
    if l.isZero then some (const 0) else if r.isNoShift then some l else none

/-- **An operation, folded.** -/
def foldBinary (op : Operation) (l r : Expr) : Expr :=
  match l.constant?, r.constant? with
  | some x, some y => const (op.apply x y)
  | _, _ => (identity? op l r).getD (binary op l r)

/-- **A call, folded**: evaluated for one sample if all its arguments are
constants. -/
def foldCall (name : String) (f : Builtin) (args : List Expr) : Evaluation Expr :=
  if args.all isConstant then do
    let block ← (call name f args).eval [] 1
    pure (const (block.headD 0))
  else
    pure (call name f args)

mutual

/-- **A tree folded from the leaves up**, left before right. -/
def fold : Expr → Evaluation Expr
  | const v => pure (const v)
  | var name => pure (var name)
  | binary op l r => do
    let l ← l.fold
    let r ← r.fold
    pure (foldBinary op l r)
  | call name f args => do
    let args ← foldAll args
    foldCall name f args

/-- Several trees folded, one after the other. -/
def foldAll : List Expr → Evaluation (List Expr)
  | [] => pure []
  | e :: rest => do
    let e ← e.fold
    let rest ← foldAll rest
    pure (e :: rest)

end

end Expr

end FormulaSynth
