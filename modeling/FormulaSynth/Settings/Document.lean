import FormulaSynth.Data
import FormulaSynth.Decimal.Shortest
import FormulaSynth.Settings.Basic
import FormulaSynth.Toml.Quoted
import FormulaSynth.Toml.Reader
/-!
# Settings as a document

Settings are kept in a document of five sections. Reading one, sections and
fields that are missing take their defaults and those that are unknown are not
looked at, but a value of the wrong kind or out of the range of its type spoils
the document. Writing one, every section and every field is there, in a fixed
order and a fixed form, so equal settings give equal texts.
-/

namespace FormulaSynth

/-! ## From plain data -/

/-- The settings of the sound. -/
def AudioSettings.ofData? (dialect : Dialect) (d : Data) : Option AudioSettings := do
  match ← d.fields? dialect ["sample_rate", "block_size", "channels"] with
  | [rate, size, channels] =>
    let default : AudioSettings := {}
    return {
      sampleRate := ← Data.field? Data.uint32? (some default.sampleRate) rate
      blockSize := ← Data.field? Data.nat64? (some default.blockSize) size
      channels := ← Data.field? Data.uint16? (some default.channels) channels }
  | _ => none

/-- The settings of the clock. -/
def ClockSettings.ofData? (dialect : Dialect) (d : Data) : Option ClockSettings := do
  match ← d.fields? dialect ["base_rate", "tempo", "ticks_per_beat"] with
  | [base, tempo, ticks] =>
    let default : ClockSettings := {}
    return {
      baseRate := ← Data.field? Data.uint32? (some default.baseRate) base
      tempo := ← Data.field? Data.float? (some default.tempo) tempo
      ticksPerBeat := ← Data.field? Data.uint32? (some default.ticksPerBeat) ticks }
  | _ => none

/-- The macros. -/
def Macros.ofData? (dialect : Dialect) (d : Data) : Option Macros := do
  match ← d.fields? dialect ["w", "x", "y", "z"] with
  | [w, x, y, z] =>
    return {
      w := ← Data.field? Data.int32? (some 0) w
      x := ← Data.field? Data.int32? (some 0) x
      y := ← Data.field? Data.int32? (some 0) y
      z := ← Data.field? Data.int32? (some 0) z }
  | _ => none

namespace Settings

/-- The text of the section for the formula. -/
def formulaOfData? (dialect : Dialect) (d : Data) : Option String := do
  match ← d.fields? dialect ["text"] with
  | [text] => Data.field? Data.text? (some defaultFormula) text
  | _ => none

/-- The mode of the section for the log. -/
def logModeOfData? (dialect : Dialect) (d : Data) : Option LogMode := do
  match ← d.fields? dialect ["mode"] with
  | [mode] => Data.field? (Data.choice? dialect LogMode.ofName?) (some .standalone) mode
  | _ => none

/-- **The settings of plain data**, not validated. -/
def ofData? (dialect : Dialect) (d : Data) : Option Settings := do
  match ← d.fields? dialect ["audio", "clock", "macros", "formula", "logging"] with
  | [audio, clock, macros, formula, logging] =>
    return {
      audio := ← Data.field? (AudioSettings.ofData? dialect) (some {}) audio
      clock := ← Data.field? (ClockSettings.ofData? dialect) (some {}) clock
      macros := ← Data.field? (Macros.ofData? dialect) (some {}) macros
      formula := ← Data.field? (formulaOfData? dialect) (some defaultFormula) formula
      logMode := ← Data.field? (logModeOfData? dialect) (some .standalone) logging }
  | _ => none

/-! ## Reading and writing documents -/

/-- How settings are read from a document: a section may be a list with more items
than it has fields, and a mode may have an empty table or list behind it. -/
def dialect : Dialect where
  extraItems := true
  isUnit
    | .record [] | .list [] => true
    | _ => false

/-- **The settings of a document**, not validated, if it is one and every value in
it is of the right kind. -/
def read (document : List Char) : Option Settings := do
  ofData? dialect (← Toml.read document)

/-- A number that is always written with a point. -/
def floatText (x : Float) : List Char :=
  let text := Decimal.ofFloat x
  if x.isFinite && !text.contains '.' then text ++ ['.', '0'] else text

/-- A field on a line of its own. -/
def fieldLine (name : String) (value : List Char) : List Char :=
  name.toList ++ " = ".toList ++ value ++ ['\n']

/-- A section with its header. -/
def sectionText (name : String) (fields : List (String × List Char)) : List Char :=
  '[' :: (name.toList ++ [']', '\n']) ++
    fields.flatMap fun field => fieldLine field.1 field.2

/-- The decimal text of a natural number. -/
def natText (n : Nat) : List Char :=
  Decimal.ofInt n

/-- **The document of settings.** Sections have an empty line between them. -/
def write (s : Settings) : List Char :=
  sectionText "audio"
    [("sample_rate", natText s.audio.sampleRate.toNat),
     ("block_size", natText s.audio.blockSize),
     ("channels", natText s.audio.channels.toNat)] ++
  '\n' :: (sectionText "clock"
    [("base_rate", natText s.clock.baseRate.toNat),
     ("tempo", floatText s.clock.tempo),
     ("ticks_per_beat", natText s.clock.ticksPerBeat.toNat)] ++
  '\n' :: (sectionText "macros"
    [("w", Decimal.ofInt s.macros.w.toInt),
     ("x", Decimal.ofInt s.macros.x.toInt),
     ("y", Decimal.ofInt s.macros.y.toInt),
     ("z", Decimal.ofInt s.macros.z.toInt)] ++
  '\n' :: (sectionText "formula" [("text", Toml.quote s.formula.toList)] ++
  '\n' :: sectionText "logging" [("mode", Toml.quote s.logMode.name.toList)])))

end Settings

end FormulaSynth
