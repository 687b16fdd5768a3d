/-!
# Clocks

The two counters a formula is driven by, as functions of the index of a sample.
The sample counter `t` runs at a rate of its own, the base rate, and is computed
in exact integers, so it does not drift. The tempo counter `T` runs at so many
ticks per beat and so many beats per minute; its tempo is a floating-point
number, so it is computed in floating point. Both are cut down to the low 32 bits.

A clock that runs at no sample rate stands still.
-/

namespace FormulaSynth

/-- **The rates the counters derive from, and how far the samples have come.** -/
structure Clock where
  sampleRate : UInt32 := 44100
  /-- The rate of the sample counter, per second. -/
  baseRate : UInt32 := 8000
  /-- Beats per minute. -/
  tempo : Float := 120.0
  ticksPerBeat : UInt32 := 256
  /-- The samples passed since the last reset. -/
  elapsed : UInt64 := 0

namespace Clock

/-- **The sample counter at a sample**: the whole number of its periods that have
passed. -/
def sampleCounter (c : Clock) (n : UInt64) : Int32 :=
  if c.sampleRate = 0 then 0
  else Int32.ofNat (n.toNat * c.baseRate.toNat / c.sampleRate.toNat)

/-- The ticks of the tempo that have passed at a sample, with fractions. -/
def ticks (c : Clock) (n : UInt64) : Float :=
  n.toFloat * c.tempo / 60.0 * c.ticksPerBeat.toFloat / c.sampleRate.toFloat

/-- **The tempo counter at a sample**: the whole ticks that have passed, held
within 64 bits before they are cut down to 32. -/
def tempoCounter (c : Clock) (n : UInt64) : Int32 :=
  if c.sampleRate = 0 then 0
  else (c.ticks n).floor.toInt64.toInt32

/-- The clock some samples later. -/
def advance (c : Clock) (frames : UInt64) : Clock :=
  { c with elapsed := c.elapsed + frames }

/-- The clock at its beginning. -/
def reset (c : Clock) : Clock :=
  { c with elapsed := 0 }

end Clock

end FormulaSynth
