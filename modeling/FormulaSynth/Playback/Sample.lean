/-!
# Samples

What a value of a formula sounds like: its low byte, as a fraction of twice the
greatest byte, so between 0 and one half. A negative value's low byte is that of
its two's complement.
-/

namespace FormulaSynth

/-- The low byte of a word. -/
def lowByte (value : Int32) : Nat :=
  (value.toInt % 256).toNat

/-- **The sample of a value.** -/
def toSample (value : Int32) : Float32 :=
  Float32.ofNat (lowByte value) / 510.0

end FormulaSynth
