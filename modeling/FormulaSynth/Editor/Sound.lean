import FormulaSynth.Editor
import FormulaSynth.Settings.Basic
import FormulaSynth.Wav
/-!
# The sound of a formula

What a tree gives with the settings of a user, in two forms: the values from any
sample on, all at once, and sound for a number of seconds from the beginning,
where the tree comes through a channel and is played block by block.

Both are the same counters and macros put into the same tree. They differ in how
the samples are divided, which makes no difference to a tree that draws nothing.
-/

namespace FormulaSynth

namespace Settings

/-- How many frames a number of seconds takes, to the nearest. There are none in a
time that is not above zero. -/
def frames (s : Settings) (seconds : Float) : Nat :=
  let seconds := if 0.0 < seconds then seconds else 0.0
  (seconds * s.audio.sampleRate.toFloat).round.toUInt64.toNat

end Settings

namespace Editor

/-- **The values of a tree** for a number of samples from a first one on. -/
def values (e : Editor) (s : Settings) (tree : Expr) (first : UInt64) (count : Nat) :
    Evaluation Block := do
  let r := (e.renderer { s.toClock with elapsed := first } count).withTree tree
  let (values, _) ← { r with macros := s.macros }.nextBlock count
  return values.getD []

/-- **Block after block** while frames remain: the samples of as many frames as a block has, or
of those that are left, are put in front of the ones before. Blocks of no frames would not come
to an end, and there are none. -/
def playBlocks (size channels : Nat) (r : Renderer) (remaining : Nat)
    (done : List (List Float32)) : Evaluation (List (List Float32)) :=
  if remaining = 0 ∨ size = 0 then pure done
  else do
    let frames := min remaining size
    let (samples, r) ← r.render (frames * channels) channels
    playBlocks size channels r (remaining - frames) (samples :: done)
termination_by remaining

/-- **The samples of a channel's tree** for a number of frames from the beginning,
block by block. -/
def samples (e : Editor) (s : Settings) (channel : Channel Expr) (frames : Nat) :
    Evaluation (List Float32) := do
  let r := (e.renderer s.toClock s.audio.blockSize).withChannel channel
  let done ← playBlocks s.audio.blockSize s.audio.channels.toNat { r with macros := s.macros }
    frames []
  return done.reverse.flatten

/-- **The sound of a channel's tree** for a number of frames from the beginning. -/
def sound (e : Editor) (s : Settings) (channel : Channel Expr) (frames : Nat) :
    Evaluation Wav := do
  return { channels := s.audio.channels, rate := s.audio.sampleRate,
           samples := ← e.samples s channel frames }

end Editor

end FormulaSynth
