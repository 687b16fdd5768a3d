import FormulaSynth.Json.Basic
/-!
# Macros

The four values a user turns while a formula plays, and the formula reads as the
variables `w`, `x`, `y` and `z`.
-/

namespace FormulaSynth

/-- **The values of the macros.** -/
structure Macros where
  w : Int32 := 0
  x : Int32 := 0
  y : Int32 := 0
  z : Int32 := 0
  deriving DecidableEq, Repr

namespace Macros

/-- The value of a macro by name. -/
def get? (m : Macros) (name : String) : Option Int32 :=
  match name with
  | "w" => some m.w
  | "x" => some m.x
  | "y" => some m.y
  | "z" => some m.z
  | _ => none

/-- The macros with one of them changed by name, if there is one of that name. -/
def set? (m : Macros) (name : String) (value : Int32) : Option Macros :=
  match name with
  | "w" => some { m with w := value }
  | "x" => some { m with x := value }
  | "y" => some { m with y := value }
  | "z" => some { m with z := value }
  | _ => none

/-- The JSON form of the macros. -/
def toJson (m : Macros) : Json :=
  .object [("w", .integer m.w.toInt), ("x", .integer m.x.toInt),
    ("y", .integer m.y.toInt), ("z", .integer m.z.toInt)]

end Macros

end FormulaSynth
