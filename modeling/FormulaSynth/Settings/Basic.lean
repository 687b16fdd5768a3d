import FormulaSynth.Playback.Clock
import FormulaSynth.Playback.Macros
/-!
# Settings

What a user can set: how the sound is made, what drives the counters, where the
macros stand, which formula plays, and where the log goes.
-/

namespace FormulaSynth

/-- How the sound is made. -/
structure AudioSettings where
  sampleRate : UInt32 := 44100
  /-- How many frames are rendered at a time. -/
  blockSize : Nat := 512
  channels : UInt16 := 2
  deriving DecidableEq, Repr

/-- What drives the counters. -/
structure ClockSettings where
  baseRate : UInt32 := 8000
  tempo : Float := 120.0
  ticksPerBeat : UInt32 := 256

/-- Where messages go. -/
inductive LogMode where
  | standalone | file | silent
  deriving DecidableEq, Repr

namespace LogMode

/-- Every mode. -/
def all : List LogMode := [standalone, file, silent]

/-- The name of a mode in a document. -/
def name : LogMode → String
  | standalone => "standalone"
  | file => "file"
  | silent => "silent"

/-- The mode of a name. -/
def ofName? (s : String) : Option LogMode :=
  all.find? fun mode => mode.name == s

@[simp] theorem ofName?_name (mode : LogMode) : ofName? mode.name = some mode := by
  cases mode <;> decide

end LogMode

/-- The formula that plays if the user has set none. -/
def defaultFormula : String := "t * ((t >> 12 | t >> 8) & 63 & t >> 4)"

/-- **What a user can set.** -/
structure Settings where
  audio : AudioSettings := {}
  clock : ClockSettings := {}
  macros : Macros := {}
  formula : String := defaultFormula
  logMode : LogMode := .standalone

namespace Settings

/-- **The clock the settings ask for**, at its beginning. -/
def toClock (s : Settings) : Clock where
  sampleRate := s.audio.sampleRate
  baseRate := s.clock.baseRate
  tempo := s.clock.tempo
  ticksPerBeat := s.clock.ticksPerBeat
  elapsed := 0

end Settings

end FormulaSynth
