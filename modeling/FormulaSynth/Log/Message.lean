import FormulaSynth.Json.Basic
/-!
# Log messages

A message is a severity and a text. It is shown on one line with its severity in
brackets. Errors are told apart from the rest because a terminal has a stream of
its own for them.
-/

namespace FormulaSynth

/-- **How serious a message is**, the most serious first. -/
inductive Severity where
  | fatal | error | warn | info | debug
  deriving DecidableEq, Repr

namespace Severity

/-- Every severity, the most serious first. -/
def all : List Severity := [fatal, error, warn, info, debug]

/-- Whether a severity belongs to the stream for errors. -/
def isError : Severity → Bool
  | fatal | error => true
  | warn | info | debug => false

/-- The name of a severity in serialised messages. -/
def name : Severity → String
  | fatal => "Fatal"
  | error => "Error"
  | warn => "Warn"
  | info => "Info"
  | debug => "Debug"

/-- The severity of a serialised name. -/
def ofName? (s : String) : Option Severity :=
  all.find? fun severity => severity.name == s

/-- A severity as it stands before a message. -/
def display : Severity → String
  | fatal => "[FATAL]"
  | error => "[ERROR]"
  | warn => "[WARN]"
  | info => "[INFO]"
  | debug => "[DEBUG]"

end Severity

/-- **A message for the log.** -/
structure LogMessage where
  severity : Severity
  text : String
  deriving DecidableEq, Repr

namespace LogMessage

/-- A message as it is shown. -/
def display (m : LogMessage) : String :=
  m.severity.display ++ " " ++ m.text

/-- A message as a line of a log. -/
def line (m : LogMessage) : String :=
  m.display ++ "\n"

/-- The JSON form of a message. -/
def toJson (m : LogMessage) : Json :=
  .object [("level", .string m.severity.name), ("msg", .string m.text)]

end LogMessage

end FormulaSynth
