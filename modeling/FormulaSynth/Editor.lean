import FormulaSynth.Compiler
import FormulaSynth.Log.Message
import FormulaSynth.Playback.Renderer
/-!
# Editing

An editing session keeps the text of a formula next to the last tree that could
be made of it. A text that is rejected never takes the tree away: what is playing
goes on until the text is mended. Every new tree is published if there is a
channel; that it could not be queued is logged and changes nothing else.
-/

namespace FormulaSynth

/-- **Where the text of a session stands.** -/
inductive ParseState where
  | notParsed
  | parsed
  | error (diagnostic : Diagnostic)
  deriving DecidableEq, Repr

namespace ParseState

/-- Whether the text was made into a tree. -/
def isParsed : ParseState → Bool
  | parsed => true
  | _ => false

/-- Why the text was rejected, if it was. -/
def error? : ParseState → Option Diagnostic
  | error d => some d
  | _ => none

/-- The JSON form of a state. -/
def toJson : ParseState → Json
  | notParsed => .string "NotParsed"
  | parsed => .string "Parsed"
  | error d => .object [("Error", d.toJson)]

end ParseState

/-- **An editing session.** -/
structure Editor where
  compiler : Compiler := {}
  formula : String := ""
  state : ParseState := .notParsed
  /-- The last tree made, possibly of an older text. -/
  tree : Option Expr := none
  channel : Option (Channel Expr) := none

namespace Editor

/-- The session with another text. -/
def setFormula (s : Editor) (text : String) : Editor :=
  { s with formula := text, state := .notParsed }

/-- What is logged of a tree that could not be queued. -/
def refusalMessage : Refusal → LogMessage
  | .full =>
    ⟨.warn, Refusal.full.message ++
      ", the new formula will not be heard until the next parse"⟩
  | .disconnected => ⟨.warn, Refusal.disconnected.message⟩

/-- What is logged of a text that is rejected. -/
def rejectionMessage (d : Diagnostic) : LogMessage :=
  ⟨.error, s!"Formula rejected: {d.display}"⟩

/-- A tree sent to the channel, if there is one, with what is logged about it. -/
def publish (s : Editor) (tree : Expr) : Editor × List LogMessage :=
  match s.channel with
  | none => (s, [])
  | some channel =>
    let (refusal, channel) := channel.publish tree
    ({ s with channel := some channel }, (refusal.map refusalMessage).toList)

/-- What comes of parsing the text of a session. -/
structure Outcome where
  result : Except Diagnostic Expr
  session : Editor
  log : List LogMessage

/-- **The text made into a tree**, which is then the session's, or rejected. -/
def parse (s : Editor) : StateM Random Outcome := do
  match ← s.compiler.parse s.formula with
  | .ok tree =>
    let (s, log) := s.publish tree
    pure ⟨.ok tree, { s with tree := some tree, state := .parsed }, log⟩
  | .error fault =>
    let d := fault.diagnostic
    pure ⟨.error d, { s with state := .error d }, [rejectionMessage d]⟩

/-- A renderer for the formulas of a session. -/
def renderer (s : Editor) (clock : Clock) (maxBlock : Nat) : Renderer :=
  .new clock s.compiler.vocabulary.variableNames maxBlock

end Editor

end FormulaSynth
