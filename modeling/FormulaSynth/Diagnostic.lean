import FormulaSynth.Json.Basic
/-!
# Diagnostics

What a user is told about a formula that was rejected: a place, the kind of
thing that failed there and a sentence about it. Line and column are zero if no
place is known.
-/

namespace FormulaSynth

/-- **Why a formula was rejected, and where.** -/
structure Diagnostic where
  line : Nat
  column : Nat
  message : String
  rule : String
  deriving DecidableEq, Repr

namespace Diagnostic

/-- A diagnostic on one line. -/
def display (d : Diagnostic) : String :=
  s!"{d.line}:{d.column} [{d.rule}] {d.message}"

instance : ToString Diagnostic where
  toString := display

/-- The JSON form of a diagnostic. -/
def toJson (d : Diagnostic) : Json :=
  .object [("line", .integer d.line), ("col", .integer d.column),
    ("message", .string d.message), ("rule", .string d.rule)]

end Diagnostic

end FormulaSynth
