import FormulaSynth.Decimal.Shortest
import FormulaSynth.Log.Message
import FormulaSynth.Settings.Basic
import FormulaSynth.Text.Blank
/-!
# Validating settings

Settings that make no sense are not refused but mended, field by field: a field
out of its range gets a fixed value of its own, a warning says so, and every other
field stays as it is. The log mode is always right.
-/

namespace FormulaSynth

namespace Settings

/-! ## What each field has to satisfy -/

/-- Whether a sample rate can be played at. -/
def sampleRateOk (rate : UInt32) : Bool := 8000 ≤ rate && rate ≤ 192000

/-- Whether a number of frames can be rendered at a time. -/
def blockSizeOk (size : Nat) : Bool := 1 ≤ size && size ≤ 8192

/-- Whether a number of channels can be played on. -/
def channelsOk (channels : UInt16) : Bool := 1 ≤ channels && channels ≤ 8

/-- Whether a counter can run at a rate. -/
def rateOk (rate : UInt32) : Bool := rate ≠ 0

/-- Whether a tempo can be kept: a number above zero and not above 999. -/
def tempoOk (tempo : Float) : Bool := tempo.isFinite && 0.0 < tempo && tempo ≤ 999.0

/-- Whether a macro can stand at a value. -/
def macroOk (value : Int32) : Bool := 0 ≤ value && value ≤ 255

/-- Whether a text can be a formula at all. -/
def formulaOk (text : String) : Bool := !Text.allBlank text.toList

/-! ## Mending -/

/-- A value with the warnings given on the way to it. -/
structure Mended (α : Type) where
  value : α
  warnings : List LogMessage

/-- **A field that is kept if it is right and replaced if not.** -/
def mend {α : Type} (ok : α → Bool) (replacement : α) (warning : α → String) (value : α) :
    Mended α :=
  if ok value then ⟨value, []⟩ else ⟨replacement, [⟨.warn, warning value⟩]⟩

/-- The wording of a warning about a field. -/
def invalid (field shown replacement : String) : String :=
  s!"Invalid {field}: {shown}. Using default: {replacement}"

/-- The settings of the sound, mended. -/
def mendAudio (a : AudioSettings) : Mended AudioSettings :=
  let rate := mend sampleRateOk 44100
    (fun v => invalid "sample_rate" (toString v.toNat) "44100") a.sampleRate
  let size := mend blockSizeOk 512
    (fun v => invalid "block_size" (toString v) "512") a.blockSize
  let channels := mend channelsOk 2
    (fun v => invalid "channels" (toString v.toNat) "2") a.channels
  ⟨⟨rate.value, size.value, channels.value⟩,
    rate.warnings ++ size.warnings ++ channels.warnings⟩

/-- The settings of the clock, mended. -/
def mendClock (c : ClockSettings) : Mended ClockSettings :=
  let base := mend rateOk 8000
    (fun v => invalid "base_rate" (toString v.toNat) "8000") c.baseRate
  let tempo := mend tempoOk 120.0
    (fun v => invalid "tempo" (String.ofList (Decimal.ofFloat v)) "120") c.tempo
  let ticks := mend rateOk 256
    (fun v => invalid "ticks_per_beat" (toString v.toNat) "256") c.ticksPerBeat
  ⟨⟨base.value, tempo.value, ticks.value⟩,
    base.warnings ++ tempo.warnings ++ ticks.warnings⟩

/-- A macro, mended. -/
def mendMacro (name : String) (value : Int32) : Mended Int32 :=
  mend macroOk 0 (fun v => invalid s!"macro {name}" (toString v.toInt) "0") value

/-- The macros, mended. -/
def mendMacros (m : Macros) : Mended Macros :=
  let w := mendMacro "w" m.w
  let x := mendMacro "x" m.x
  let y := mendMacro "y" m.y
  let z := mendMacro "z" m.z
  ⟨⟨w.value, x.value, y.value, z.value⟩,
    w.warnings ++ x.warnings ++ y.warnings ++ z.warnings⟩

/-- The formula, mended. -/
def mendFormula (text : String) : Mended String :=
  mend formulaOk "t" (fun _ => "Empty formula. Using default: t") text

/-- **The settings with every field mended**, and the warnings in the order of the
fields. -/
def validate (s : Settings) : Mended Settings :=
  let audio := mendAudio s.audio
  let clock := mendClock s.clock
  let macros := mendMacros s.macros
  let formula := mendFormula s.formula
  ⟨⟨audio.value, clock.value, macros.value, formula.value, s.logMode⟩,
    audio.warnings ++ clock.warnings ++ macros.warnings ++ formula.warnings⟩

end Settings

end FormulaSynth
