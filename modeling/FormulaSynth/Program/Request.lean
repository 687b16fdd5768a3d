import FormulaSynth.Program.Arguments
/-!
# Requests

What the program can be asked to do: check a formula, print values of it, or
render it to a file. A formula that is left out is the one of the settings. The
settings file can be chosen before the command.
-/

namespace FormulaSynth

/-- **What to do with a formula.** -/
inductive Command where
  /-- Print its tree, or why there is none. -/
  | check (formula : String) (json : Bool)
  /-- Print its values for so many samples from a first one on. -/
  | eval (formula : Option String) (count : Nat) (first : UInt64)
  /-- Write its sound to a file. -/
  | render (formula : Option String) (out : String) (seconds : Float)

/-- **A command, and the path of the settings file to use for it.** -/
structure Request where
  config : Option String := none
  command : Command

namespace Request

/-- The options before the command. -/
def leadingForms : List OptionForm :=
  [⟨"config", some 'c', .path⟩, .help, .version]

/-- The options of checking. -/
def checkForms : List OptionForm :=
  [⟨"json", none, .flag⟩, .help]

/-- The options of evaluating. -/
def evalForms : List OptionForm :=
  [⟨"len", some 'n', .count⟩, ⟨"start", none, .count⟩, .help]

/-- The options of rendering. -/
def renderForms : List OptionForm :=
  [⟨"out", some 'o', .path⟩, ⟨"seconds", some 's', .real⟩, .help]

/-- Checking a formula. -/
def check (arguments : List String) : Except Halt Command := do
  let given ← Given.ofArguments checkForms 1 arguments
  match given.operands with
  | formula :: _ => .ok (.check formula (given.flag "json"))
  | [] => .error (.usage (.missing "a formula"))

/-- Evaluating a formula, by default for sixteen samples from the beginning. -/
def eval (arguments : List String) : Except Halt Command := do
  let given ← Given.ofArguments evalForms 1 arguments
  .ok (.eval given.operands.head? (given.countD "len" 16)
    (UInt64.ofNat (given.countD "start" 0)))

/-- Rendering a formula, by default for ten seconds. -/
def render (arguments : List String) : Except Halt Command := do
  let given ← Given.ofArguments renderForms 1 arguments
  match given.path? "out" with
  | some out => .ok (.render given.operands.head? out (given.realD "seconds" 10.0))
  | none => .error (.usage (.missing "'--out'"))

/-- The names of the commands. -/
def commandNames : List String := ["check", "eval", "render", "help"]

/-- Asking for help on a command. -/
def help : List String → Except Halt Command
  | [] => .error .help
  | [name] =>
    if commandNames.contains name then .error .help
    else .error (.usage (.unexpected name))
  | _ :: name :: _ => .error (.usage (.unexpected name))

/-- A command by name. -/
def commandOf (name : String) (arguments : List String) : Except Halt Command :=
  match name with
  | "check" => check arguments
  | "eval" => eval arguments
  | "render" => render arguments
  | "help" => help arguments
  | _ => .error (.usage (.unexpected name))

/-- **The request of a command line.** -/
def ofArguments (arguments : List String) : Except Halt Request := do
  let (before, behind) := ArgumentItem.beforeOperand leadingForms none arguments
  let given ← Given.ofArguments leadingForms 0 before
  match behind with
  | name :: arguments => .ok ⟨given.path? "config", ← commandOf name arguments⟩
  | [] => .error (.usage (.missing "a command"))

end Request

end FormulaSynth
