/-!
# Wavetables

The two waves a formula can look values up in, as one period of 256 levels
each. Levels are unsigned bytes centred on 127, so a looked-up value can be
played as it is or fed back into a formula. Any word is a phase: it is wrapped
into the period, so no lookup falls outside the table.
-/

namespace FormulaSynth

/-- **One period of a wave**, as 256 levels. -/
structure Wavetable where
  levels : Vector Int32 256

namespace Wavetable

/-- The place of a phase within the period: its remainder modulo 256, counted
up from the period's start also for negative phases. -/
def index (phase : Int32) : Nat :=
  (phase.toInt % 256).toNat

theorem index_lt (phase : Int32) : index phase < 256 := by
  unfold index
  omega

/-- **The level of a wave at a phase.** -/
def level (w : Wavetable) (phase : Int32) : Int32 :=
  w.levels.get ⟨index phase, index_lt phase⟩

set_option maxRecDepth 4096 in
/-- One period of a sine wave. -/
def sine : Wavetable where
  levels := #v[
    127, 130, 133, 136, 139, 143, 146, 149, 152, 155, 158, 161, 164, 167, 170, 173,
    176, 179, 182, 184, 187, 190, 193, 195, 198, 200, 203, 205, 208, 210, 213, 215,
    217, 219, 221, 224, 226, 228, 229, 231, 233, 235, 236, 238, 239, 241, 242, 244,
    245, 246, 247, 248, 249, 250, 251, 251, 252, 253, 253, 254, 254, 254, 254, 254,
    255, 254, 254, 254, 254, 254, 253, 253, 252, 251, 251, 250, 249, 248, 247, 246,
    245, 244, 242, 241, 239, 238, 236, 235, 233, 231, 229, 228, 226, 224, 221, 219,
    217, 215, 213, 210, 208, 205, 203, 200, 198, 195, 193, 190, 187, 184, 182, 179,
    176, 173, 170, 167, 164, 161, 158, 155, 152, 149, 146, 143, 139, 136, 133, 130,
    127, 124, 121, 118, 115, 111, 108, 105, 102,  99,  96,  93,  90,  87,  84,  81,
     78,  75,  72,  70,  67,  64,  61,  59,  56,  54,  51,  49,  46,  44,  41,  39,
     37,  35,  33,  30,  28,  26,  25,  23,  21,  19,  18,  16,  15,  13,  12,  10,
      9,   8,   7,   6,   5,   4,   3,   3,   2,   1,   1,   0,   0,   0,   0,   0,
      0,   0,   0,   0,   0,   0,   1,   1,   2,   3,   3,   4,   5,   6,   7,   8,
      9,  10,  12,  13,  15,  16,  18,  19,  21,  23,  25,  26,  28,  30,  33,  35,
     37,  39,  41,  44,  46,  49,  51,  54,  56,  59,  61,  64,  67,  70,  72,  75,
     78,  81,  84,  87,  90,  93,  96,  99, 102, 105, 108, 111, 115, 118, 121, 124]

/-- One period of a triangle wave. It moves by two per step, from 127 up to 255
at a quarter, down to the floor at three quarters and back. One step below 1
would be -1, so the lowest level is cut off at zero. -/
def triangle : Wavetable where
  levels := Vector.ofFn fun i : Fin 256 =>
    let i : Int := i.val
    if i < 128 then Int32.ofInt (255 - 2 * (64 - i).natAbs)
    else Int32.ofInt (max 0 (2 * (192 - i).natAbs - 1))

end Wavetable

end FormulaSynth
