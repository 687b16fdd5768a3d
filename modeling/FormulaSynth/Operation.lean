/-!
# Operations

The ten binary operators of a formula and what each computes on a pair of
32-bit words. Words are signed and wrap, and no pair of words is an error:
division and remainder by zero are zero, and a shift moves by its right
operand modulo sixteen. A player has to fill every sample of a block, so
there is nobody an arithmetic error could be reported to.

The operators are listed from the loosest binding to the tightest, and
`Operation.level` is the position of an operator's group in that list. Within
a level operators associate to the left.
-/

namespace FormulaSynth

/-- **A binary operator of a formula.** -/
inductive Operation where
  | xor | and | or | add | subtract | multiply | divide | modulo
  | shiftLeft | shiftRight
  deriving DecidableEq, Repr

namespace Operation

/-- Every operator, from the loosest binding to the tightest. -/
def all : List Operation :=
  [xor, and, or, add, subtract, multiply, divide, modulo, shiftLeft, shiftRight]

@[simp] theorem mem_all (op : Operation) : op ∈ all := by
  cases op <;> decide

/-- The sign an operator is written with. -/
def symbol : Operation → String
  | xor => "^"
  | and => "&"
  | or => "|"
  | add => "+"
  | subtract => "-"
  | multiply => "*"
  | divide => "/"
  | modulo => "%"
  | shiftLeft => "<<"
  | shiftRight => ">>"

/-- The operator a sign stands for. -/
def ofSymbol? (s : String) : Option Operation :=
  all.find? (fun op => op.symbol == s)

/-- Reading an operator's own sign gives the operator back. -/
@[simp] theorem ofSymbol?_symbol (op : Operation) : ofSymbol? op.symbol = some op := by
  cases op <;> decide

/-- **How tightly an operator binds**: the place of its group among the five,
`xor` being loosest and the shifts tightest. -/
def level : Operation → Nat
  | xor => 0
  | and | or => 1
  | add | subtract => 2
  | multiply | divide | modulo => 3
  | shiftLeft | shiftRight => 4

/-- The name an operator has in serialised trees. -/
def name : Operation → String
  | xor => "Xor"
  | and => "And"
  | or => "Or"
  | add => "Add"
  | subtract => "Subtract"
  | multiply => "Multiply"
  | divide => "Divide"
  | modulo => "Mod"
  | shiftLeft => "ShiftLeft"
  | shiftRight => "ShiftRight"

/-- The operator a serialised name stands for. -/
def ofName? (s : String) : Option Operation :=
  all.find? (fun op => op.name == s)

@[simp] theorem ofName?_name (op : Operation) : ofName? op.name = some op := by
  cases op <;> decide

/-! ## Values -/

/-- **How far a shift moves**: the right operand modulo sixteen, so that a
negative amount counts back from sixteen. -/
def shiftAmount (r : Int32) : Nat :=
  (r.toInt % 16).toNat

theorem shiftAmount_lt (r : Int32) : shiftAmount r < 16 := by
  unfold shiftAmount
  omega

/-- **The value of an operator on a pair of words.** -/
def apply (op : Operation) (l r : Int32) : Int32 :=
  match op with
  | xor => l ^^^ r
  | and => l &&& r
  | or => l ||| r
  | add => l + r
  | subtract => l - r
  | multiply => l * r
  | divide => if r = 0 then 0 else l / r
  | modulo => if r = 0 then 0 else l % r
  | shiftLeft => l <<< Int32.ofNat (shiftAmount r)
  | shiftRight => l >>> Int32.ofNat (shiftAmount r)

end Operation

end FormulaSynth
