/-!
# WAV files

Sound as a file: a header that says how the samples are to be played, and the
samples of all channels, frame after frame. Samples are floats of 32 bits, which
is why the header is of the extensible kind, and the channels are the first so
many positions of loudspeakers. Every number has its lowest byte first.
-/

namespace FormulaSynth

/-- **Sound to be stored.** The samples of a frame stand together. -/
structure Wav where
  channels : UInt16
  /-- Frames per second. -/
  rate : UInt32
  samples : List Float32

namespace Wav

/-- The bytes of a number, the lowest first. -/
def lowFirst : Nat → Nat → List UInt8
  | 0, _ => []
  | count + 1, n => UInt8.ofNat n :: lowFirst count (n / 256)

@[simp] theorem length_lowFirst (count n : Nat) : (lowFirst count n).length = count := by
  induction count generalizing n with
  | zero => rfl
  | succ count ih => rw [lowFirst, List.length_cons, ih]

/-- The bytes of an identifier of ASCII characters. -/
def tag (name : String) : List UInt8 :=
  name.toList.map fun c => UInt8.ofNat c.toNat

/-- The identifier of samples that are floats. -/
def floatFormat : List UInt8 :=
  [0x03, 0x00, 0x00, 0x00, 0x00, 0x00, 0x10, 0x00,
   0x80, 0x00, 0x00, 0xAA, 0x00, 0x38, 0x9B, 0x71]

/-- The bytes that a sample takes. -/
def sampleSize : Nat := 4

/-- The bytes that all samples take. -/
def dataSize (w : Wav) : Nat :=
  w.samples.length * sampleSize

/-- What stands before the samples. -/
def header (w : Wav) : List UInt8 :=
  let frameSize := w.channels.toNat * sampleSize
  tag "RIFF" ++ lowFirst 4 (60 + w.dataSize) ++ tag "WAVE" ++
  tag "fmt " ++ lowFirst 4 40 ++
    lowFirst 2 0xFFFE ++ lowFirst 2 w.channels.toNat ++ lowFirst 4 w.rate.toNat ++
    lowFirst 4 (w.rate.toNat * frameSize) ++ lowFirst 2 frameSize ++ lowFirst 2 32 ++
    lowFirst 2 22 ++ lowFirst 2 32 ++ lowFirst 4 (1 <<< w.channels.toNat - 1) ++ floatFormat ++
  tag "data" ++ lowFirst 4 w.dataSize

/-- The header takes 68 bytes, so the size it begins with is that of all that
follows. -/
@[simp] theorem length_header (w : Wav) : w.header.length = 68 := by
  simp only [header, floatFormat, List.length_append, length_lowFirst, List.length_cons,
    List.length_nil, tag, List.length_map]
  decide

/-- The bytes of a sample. -/
def sampleBytes (x : Float32) : List UInt8 :=
  lowFirst sampleSize x.toBits.toNat

/-- **The bytes of the file.** -/
def encode (w : Wav) : List UInt8 :=
  w.header ++ w.samples.flatMap sampleBytes

theorem length_encode (w : Wav) : w.encode.length = 68 + w.dataSize := by
  rw [encode, List.length_append, length_header, dataSize]
  congr 1
  induction w.samples with
  | nil => rfl
  | cons x xs ih =>
    rw [List.flatMap_cons, List.length_append, ih, List.length_cons, sampleBytes, length_lowFirst,
      Nat.succ_mul, Nat.add_comm]

end Wav

end FormulaSynth
