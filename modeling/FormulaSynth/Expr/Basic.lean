import FormulaSynth.Builtin
import FormulaSynth.NameSet
import FormulaSynth.Operation
/-!
# Expressions

A formula read is a tree of constants, variables, binary operations and calls.
A call carries the name it was written with and the builtin that name stood for,
so a tree can be evaluated without a vocabulary at hand.

Two trees are the same when they look the same, `Expr.same`: what a call's name
stands for is not looked at.
-/

namespace FormulaSynth

/-- **A formula tree.** -/
inductive Expr where
  | const (value : Int32)
  | var (name : String)
  | binary (op : Operation) (lhs rhs : Expr)
  | call (name : String) (f : Builtin) (args : List Expr)
  deriving Inhabited

namespace Expr

/-- The value of a tree that is a constant. -/
def constant? : Expr → Option Int32
  | const v => some v
  | _ => none

/-- Whether a tree is a constant. -/
def isConstant (e : Expr) : Bool :=
  e.constant?.isSome

@[simp] theorem constant?_const (v : Int32) : (const v).constant? = some v := rfl

@[simp] theorem constant?_var (name : String) : (var name).constant? = none := rfl

@[simp] theorem constant?_binary (op : Operation) (l r : Expr) :
    (binary op l r).constant? = none := rfl

@[simp] theorem constant?_call (name : String) (f : Builtin) (args : List Expr) :
    (call name f args).constant? = none := rfl

theorem constant?_eq_some_iff {e : Expr} {v : Int32} : e.constant? = some v ↔ e = const v := by
  cases e <;> simp

@[simp] theorem isConstant_const (v : Int32) : (const v).isConstant = true := rfl

theorem isConstant_iff {e : Expr} : e.isConstant = true ↔ ∃ v, e = const v := by
  cases e <;> simp [isConstant]

/-! ## Sizes and names -/

mutual

/-- **The number of nodes of a tree.** -/
def nodeCount : Expr → Nat
  | const _ => 1
  | var _ => 1
  | binary _ l r => 1 + l.nodeCount + r.nodeCount
  | call _ _ args => 1 + nodeCounts args

/-- The number of nodes of several trees together. -/
def nodeCounts : List Expr → Nat
  | [] => 0
  | e :: rest => e.nodeCount + nodeCounts rest

end

mutual

/-- **The variables of a tree in the order they are met**, left to right, once for
each occurrence. -/
def occurrences : Expr → List String
  | const _ => []
  | var name => [name]
  | binary _ l r => l.occurrences ++ r.occurrences
  | call _ _ args => occurrencesAll args

/-- The variables of several trees, one tree after the other. -/
def occurrencesAll : List Expr → List String
  | [] => []
  | e :: rest => e.occurrences ++ occurrencesAll rest

end

/-- **The names of the variables of a tree.** -/
def variableNames (e : Expr) : NameSet :=
  NameSet.ofList e.occurrences

@[simp] theorem mem_variableNames {name : String} {e : Expr} :
    name ∈ e.variableNames ↔ name ∈ e.occurrences := by
  simp [variableNames]

mutual

/-- **Whether folding has nothing left to do**: no operation and no call in the
tree has only constants to work on. A call without arguments has nothing else. -/
def isFullyFolded : Expr → Bool
  | const _ => true
  | var _ => true
  | binary _ l r => !(l.isConstant && r.isConstant) && l.isFullyFolded && r.isFullyFolded
  | call _ _ args => !args.all isConstant && allFullyFolded args

/-- Whether folding has nothing left to do in any of several trees. -/
def allFullyFolded : List Expr → Bool
  | [] => true
  | e :: rest => e.isFullyFolded && allFullyFolded rest

end

/-! ## Sameness -/

mutual

/-- **Whether two trees look the same.** Calls are compared by the name they were
written with and by their arguments. -/
def same : Expr → Expr → Bool
  | const v, const w => v == w
  | var m, var n => m == n
  | binary o l r, binary o' l' r' => o == o' && l.same l' && r.same r'
  | call m _ args, call n _ args' => m == n && sameAll args args'
  | _, _ => false

/-- Whether two lists hold trees that look the same, place by place. -/
def sameAll : List Expr → List Expr → Bool
  | [], [] => true
  | e :: rest, e' :: rest' => e.same e' && sameAll rest rest'
  | _, _ => false

end

end Expr

end FormulaSynth
