import FormulaSynth.Decimal.Shortest
import FormulaSynth.Text.Scanner
/-!
# Arguments of a command line

Arguments are options and operands. An option begins with two hyphens and its
name, or with one hyphen and its letter; a single hyphen is an operand, and so is
everything behind an argument of two hyphens. The value of an option stands behind
its name and an equals sign, directly behind its letter, or in the next argument
if that does not look like an option itself.

Arguments are taken from left to right and the first fault ends it, or the first
request for help. Values are checked where they stand, and no option may be given
twice.
-/

namespace FormulaSynth

/-- What is wrong with a command line. -/
inductive UsageError where
  | unexpected (argument : String)
  | missingValue (option : String)
  | invalidValue (option value : String)
  | unexpectedValue (option : String)
  | repeated (option : String)
  | missing (what : String)
  deriving DecidableEq, Repr

/-- The words for what is wrong. -/
def UsageError.message : UsageError → String
  | unexpected argument => s!"unexpected argument '{argument}'"
  | missingValue option => s!"a value is required for '--{option}'"
  | invalidValue option value => s!"invalid value '{value}' for '--{option}'"
  | unexpectedValue option => s!"unexpected value for '--{option}'"
  | repeated option => s!"'--{option}' cannot be used multiple times"
  | missing what => s!"{what} is required"

/-- **Why a command line asks for no run**: it is wrong, or wants to be told
something. -/
inductive Halt where
  | usage (e : UsageError)
  | help
  | version
  deriving DecidableEq, Repr

/-! ## Values -/

/-- What can be the value of an option. -/
inductive OptionValue where
  | flag
  | path (s : String)
  | count (n : Nat)
  | real (x : Float)

/-- What the value of an option has to be. -/
inductive OptionKind where
  | flag | path | count | real | help | version
  deriving DecidableEq, Repr

namespace OptionValue

open Scanner

/-- The text behind a sign, and whether the sign is a minus. -/
def sign : List Char → Bool × List Char
  | '-' :: cs => (true, cs)
  | '+' :: cs => (false, cs)
  | cs => (false, cs)

/-- A natural number of 64 bits, which a plus sign may precede. -/
def count? (s : String) : Option Nat :=
  let cs := s.toList
  let digits := if cs.head? = some '+' then cs.tail else cs
  let n := Decimal.toNat digits
  if !digits.isEmpty && digits.all Decimal.isDigit && decide (n < UInt64.size) then some n else none

/-- The power of ten at the end of a number. -/
def power? : List Char → Option Int
  | [] => some 0
  | 'e' :: cs | 'E' :: cs =>
    let (negative, digits) := sign cs
    let n : Int := Decimal.toNat digits
    if !digits.isEmpty && digits.all Decimal.isDigit then some (if negative then -n else n)
    else none
  | _ => none

/-- The digits behind a point, if there is a point. -/
def places : List Char → List Char × List Char
  | '.' :: cs => run Decimal.isDigit cs
  | cs => ([], cs)

/-- The number of digits with or without a point and a power of ten. There has to be
a digit on one side of the point. -/
def decimal? (cs : List Char) : Option Float := do
  let (whole, cs) := run Decimal.isDigit cs
  let (fraction, cs) := places cs
  let power ← power? cs
  let digits := whole ++ fraction
  if digits.isEmpty then none
  else some (Decimal.toFloat (Decimal.toNat digits) (power - (fraction.length : Int)))

/-- A number without its sign, or a word for what is no number, in letters of either
case. -/
def magnitude? (cs : List Char) : Option Float :=
  let word := String.ofList (cs.map Char.toLower)
  if word = "inf" ∨ word = "infinity" then some (1.0 / 0.0)
  else if word = "nan" then some (0.0 / 0.0)
  else decimal? cs

/-- A real number. -/
def real? (s : String) : Option Float :=
  let (negative, cs) := sign s.toList
  (magnitude? cs).map fun x => if negative then -x else x

end OptionValue

namespace OptionKind

/-- Whether an option of a kind has a value of its own. -/
def takesValue : OptionKind → Bool
  | path | count | real => true
  | flag | help | version => false

/-- **The value a text stands for.** A path is not empty. -/
def read? (kind : OptionKind) (s : String) : Option OptionValue :=
  match kind with
  | path => if s.isEmpty then none else some (.path s)
  | count => (OptionValue.count? s).map .count
  | real => (OptionValue.real? s).map .real
  | flag | help | version => none

end OptionKind

/-! ## Options -/

/-- **An option of a command.** -/
structure OptionForm where
  name : String
  letter : Option Char := none
  kind : OptionKind

/-- An argument that has been understood, or the reason to stop. -/
inductive ArgumentItem where
  | operand (s : String)
  | given (option : String) (value : OptionValue)
  | halt (h : Halt)

namespace OptionForm

/-- Asking for help. -/
def help : OptionForm := ⟨"help", some 'h', .help⟩

/-- Asking for the version. -/
def version : OptionForm := ⟨"version", some 'V', .version⟩

/-- The option with a value. -/
def withValue (f : OptionForm) (value : String) : ArgumentItem :=
  match f.kind.read? value with
  | some v => .given f.name v
  | none => .halt (.usage (.invalidValue f.name value))

/-- The option without a value. -/
def alone (f : OptionForm) : ArgumentItem :=
  match f.kind with
  | .help => .halt .help
  | .version => .halt .version
  | _ => .given f.name .flag

/-- The option without the value it needs. -/
def bare (f : OptionForm) : ArgumentItem :=
  .halt (.usage (.missingValue f.name))

end OptionForm

/-! ## Reading -/

/-- **What one argument is.** -/
inductive ArgumentKind where
  /-- Everything behind it is an operand. -/
  | separator
  | item (i : ArgumentItem)
  /-- An option whose value is the next argument. -/
  | waiting (f : OptionForm)

namespace ArgumentKind

/-- An option by name, with what is behind the equals sign. -/
def long (forms : List OptionForm) (argument name : String) (value : Option String) :
    ArgumentKind :=
  match forms.find? fun f => f.name == name, value with
  | none, _ => item (.halt (.usage (.unexpected argument)))
  | some f, some value =>
    if f.kind.takesValue then item (f.withValue value)
    else item (.halt (.usage (.unexpectedValue name)))
  | some f, none => if f.kind.takesValue then waiting f else item f.alone

/-- The text behind an equals sign that a text may begin with. -/
def afterEquals : List Char → List Char
  | '=' :: cs => cs
  | cs => cs

/-- An option by letter, with what is behind the letter. -/
def short (forms : List OptionForm) (argument : String) (letter : Char) (rest : List Char) :
    ArgumentKind :=
  match forms.find? fun f => f.letter == some letter with
  | none => item (.halt (.usage (.unexpected argument)))
  | some f =>
    if f.kind.takesValue then
      if rest.isEmpty then waiting f else item (f.withValue (String.ofList (afterEquals rest)))
    else if rest.isEmpty || f.kind ≠ .flag then item f.alone
    else item (.halt (.usage (.unexpected argument)))

/-- **What an argument is** where certain options are known. -/
def of (forms : List OptionForm) (argument : String) : ArgumentKind :=
  match argument.toList with
  | ['-', '-'] => separator
  | '-' :: '-' :: cs =>
    let (name, rest) := Scanner.run (· ≠ '=') cs
    long forms argument (String.ofList name) (rest.tail?.map String.ofList)
  | '-' :: letter :: rest => short forms argument letter rest
  | _ => item (.operand argument)

end ArgumentKind

/-- Whether an argument cannot be the value of the option before it. -/
def looksLikeOption (argument : String) : Bool :=
  match argument.toList with
  | '-' :: _ :: _ => true
  | _ => false

/-- **The items of arguments**, where an option may be waiting for its value. -/
def ArgumentItem.ofArguments (forms : List OptionForm) :
    Option OptionForm → List String → List ArgumentItem
  | none, [] => []
  | some f, [] => [f.bare]
  | some f, argument :: rest =>
    if looksLikeOption argument then [f.bare]
    else f.withValue argument :: ofArguments forms none rest
  | none, argument :: rest =>
    match ArgumentKind.of forms argument with
    | .separator => rest.map .operand
    | .item i => i :: ofArguments forms none rest
    | .waiting f => ofArguments forms (some f) rest

/-- **The arguments before the first operand**, and those from it on. -/
def ArgumentItem.beforeOperand (forms : List OptionForm) :
    Option OptionForm → List String → List String × List String
  | _, [] => ([], [])
  | some _, argument :: rest =>
    let (before, behind) := beforeOperand forms none rest
    (argument :: before, behind)
  | none, argument :: rest =>
    match ArgumentKind.of forms argument with
    | .separator => (argument :: rest, [])
    | .item (.operand _) => ([], argument :: rest)
    | .item _ =>
      let (before, behind) := beforeOperand forms none rest
      (argument :: before, behind)
    | .waiting f =>
      let (before, behind) := beforeOperand forms (some f) rest
      (argument :: before, behind)

/-! ## What has been given -/

/-- **The options and the operands of a command.** -/
structure Given where
  options : List (String × OptionValue) := []
  operands : List String := []

namespace Given

/-- What has been given, with another item. No more operands than `most` are
taken. -/
def add (most : Nat) (g : Given) : ArgumentItem → Except Halt Given
  | .halt h => .error h
  | .operand s =>
    if g.operands.length < most then .ok { g with operands := g.operands ++ [s] }
    else .error (.usage (.unexpected s))
  | .given option value =>
    if g.options.any fun o => o.1 == option then .error (.usage (.repeated option))
    else .ok { g with options := (option, value) :: g.options }

/-- **What arguments give**, with at most so many operands. -/
def ofArguments (forms : List OptionForm) (most : Nat) (arguments : List String) :
    Except Halt Given :=
  (ArgumentItem.ofArguments forms none arguments).foldlM (add most) {}

/-- The value of an option. -/
def value? (g : Given) (option : String) : Option OptionValue :=
  (g.options.find? fun o => o.1 == option).map Prod.snd

/-- Whether an option is given. -/
def flag (g : Given) (option : String) : Bool :=
  (g.value? option).isSome

/-- The path of an option. -/
def path? (g : Given) (option : String) : Option String :=
  match g.value? option with
  | some (.path s) => some s
  | _ => none

/-- The count of an option, or what it is if it is not given. -/
def countD (g : Given) (option : String) (default : Nat) : Nat :=
  match g.value? option with
  | some (.count n) => n
  | _ => default

/-- The number of an option, or what it is if it is not given. -/
def realD (g : Given) (option : String) (default : Float) : Float :=
  match g.value? option with
  | some (.real x) => x
  | _ => default

end Given

end FormulaSynth
