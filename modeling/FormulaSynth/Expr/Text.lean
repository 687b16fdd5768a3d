import FormulaSynth.Decimal.Integer
import FormulaSynth.Expr.Basic
import FormulaSynth.Json.Basic
/-!
# The text of an expression

Trees are shown in two forms. The formula form puts every operation in
parentheses, so it says how a formula was understood and can be read back. The
JSON form names the kind of every node.
-/

namespace FormulaSynth

namespace Expr

mutual

/-- **The formula form of a tree.** -/
def print : Expr → List Char
  | const v => Decimal.ofInt v.toInt
  | var name => name.toList
  | binary op l r => '(' :: (l.print ++ ' ' :: (op.symbol.toList ++ ' ' :: (r.print ++ [')'])))
  | call name _ args => name.toList ++ '(' :: (printArguments args ++ [')'])

/-- Arguments with a comma and a space between them. -/
def printArguments : List Expr → List Char
  | [] => []
  | e :: rest => e.print ++ printMoreArguments rest

/-- The arguments after the first. -/
def printMoreArguments : List Expr → List Char
  | [] => []
  | e :: rest => ',' :: ' ' :: (e.print ++ printMoreArguments rest)

end

/-- The formula form of a tree as a string. -/
def display (e : Expr) : String :=
  String.ofList e.print

instance : ToString Expr where
  toString := display

mutual

/-- **The JSON form of a tree.** -/
def toJson : Expr → Json
  | const v => .object [("Constant", .integer v.toInt)]
  | var name => .object [("Variable", .string name)]
  | binary op l r => .object [("Binary", .array [.string op.name, l.toJson, r.toJson])]
  | call name _ args =>
    .object [("Call", .object [("name", .string name), ("args", .array (toJsonAll args))])]

/-- The JSON forms of several trees. -/
def toJsonAll : List Expr → List Json
  | [] => []
  | e :: rest => e.toJson :: toJsonAll rest

end

end Expr

end FormulaSynth
