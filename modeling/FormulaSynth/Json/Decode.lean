import FormulaSynth.Builtin
import FormulaSynth.Editor
import FormulaSynth.Json.Reader
import FormulaSynth.Settings.Document
/-!
# Values from JSON

The values that are exchanged in JSON, written and read back. A value that is one
of a few is known by its name; a value with parts is a record of them, or a list of
them in order. Every part has to be there unless the value can do without it.
-/

namespace FormulaSynth

/-! ## From plain data -/

/-- A severity by name. -/
def Severity.ofData? (dialect : Dialect) (d : Data) : Option Severity :=
  d.choice? dialect Severity.ofName?

/-- A message. -/
def LogMessage.ofData? (dialect : Dialect) (d : Data) : Option LogMessage := do
  match ← d.fields? dialect ["level", "msg"] with
  | [severity, text] =>
    return {
      severity := ← Data.field? (Severity.ofData? dialect) none severity
      text := ← Data.field? Data.text? none text }
  | _ => none

/-- An operation by name. -/
def Operation.ofData? (dialect : Dialect) (d : Data) : Option Operation :=
  d.choice? dialect Operation.ofName?

/-- An arity. A bound that is not there is none, except at the end of a list. -/
def Arity.ofData? (dialect : Dialect) (d : Data) : Option Arity := do
  let absent := match d with
    | .list _ => none
    | _ => some none
  match ← d.fields? dialect ["lower", "upper"] with
  | [lower, upper] =>
    return {
      lower := ← Data.field? (Data.optional? Data.nat64?) absent lower
      upper := ← Data.field? (Data.optional? Data.nat64?) absent upper }
  | _ => none

/-- A diagnostic. -/
def Diagnostic.ofData? (dialect : Dialect) (d : Data) : Option Diagnostic := do
  match ← d.fields? dialect ["line", "col", "message", "rule"] with
  | [line, column, message, rule] =>
    return {
      line := ← Data.field? Data.nat64? none line
      column := ← Data.field? Data.nat64? none column
      message := ← Data.field? Data.text? none message
      rule := ← Data.field? Data.text? none rule }
  | _ => none

/-- The state of a text without a diagnostic, by name. -/
def ParseState.ofName? : String → Option ParseState
  | "NotParsed" => some .notParsed
  | "Parsed" => some .parsed
  | _ => none

/-- The state of a text. -/
def ParseState.ofData? (dialect : Dialect) : Data → Option ParseState
  | .record [("Error", d)] => (Diagnostic.ofData? dialect d).map .error
  | d => d.choice? dialect ofName?

/-! ## Writing -/

/-- The JSON form of a severity. -/
def Severity.toJson (s : Severity) : Json :=
  .string s.name

/-- The JSON form of an operation. -/
def Operation.toJson (op : Operation) : Json :=
  .string op.name

/-- The JSON form of an arity. -/
def Arity.toJson (a : Arity) : Json :=
  .object [("lower", .optional a.lower), ("upper", .optional a.upper)]

/-! ## Reading -/

namespace Json

/-- How values are read from JSON. -/
def dialect : Dialect where
  extraItems := false
  isUnit
    | .null => true
    | _ => false

/-- **The value a text stands for**, if it is JSON and the value is of the right
kind. -/
def decode {α : Type} (ofData? : Dialect → Data → Option α) (text : String) : Option α := do
  ofData? dialect (← read text.toList)

end Json

end FormulaSynth
