import FormulaSynth.Wav
import Mathlib.Algebra.Group.Nat.Defs
/-!
# Sound read back from its file

A player reads a file from the front: what kind of file it is, the numbers that say how the
samples are to be played, and the samples up to the end of the file (`Wav.read?`). From the
bytes of some sound it reads back the number of channels, the frames per second and the bits of
the samples, each in its place (`Wav.read?_encode`). So a file says which samples were stored,
and in which order.

A file also says how long it is, in two numbers of 32 bits. Those are right for every file that
is short enough for them (`Wav.storedIn_encode`). The samples do not depend on them.
-/

namespace FormulaSynth

namespace Wav

/-! ## Numbers -/

/-- **The number that bytes stand for**, the lowest first. -/
def ofLowFirst : List UInt8 → Nat
  | [] => 0
  | b :: bytes => b.toNat + 256 * ofLowFirst bytes

/-- A number is read back from its bytes, as far as they reach. -/
theorem ofLowFirst_lowFirst (count n : Nat) : ofLowFirst (lowFirst count n) = n % 256 ^ count := by
  induction count generalizing n with
  | zero => rw [Nat.pow_zero, Nat.mod_one]; rfl
  | succ count ih =>
    rw [lowFirst, ofLowFirst, ih, Nat.pow_succ, Nat.mul_comm _ 256, Nat.mod_mul]
    rfl

/-! ## Reading -/

/-- **A reader of bytes**, which fails or leaves the bytes behind those it has read. -/
abbrev Reader := StateT (List UInt8) Option

namespace Reader

/-- So many bytes. -/
def take (count : Nat) : Reader (List UInt8) := fun bytes =>
  if count ≤ bytes.length then some (bytes.take count, bytes.drop count) else none

/-- A number of so many bytes. -/
def number (count : Nat) : Reader Nat := do
  return ofLowFirst (← take count)

/-- Bytes that have to be these. -/
def expect (expected : List UInt8) : Reader Unit := do
  guard ((← take expected.length) = expected)

/-- Bytes as words, four to each. -/
def words : List UInt8 → Option (List UInt32)
  | [] => some []
  | a :: b :: c :: d :: bytes => do
    return UInt32.ofNat (ofLowFirst [a, b, c, d]) :: (← words bytes)
  | _ => none

/-- The words up to the end. -/
def allWords : Reader (List UInt32) := fun bytes =>
  (words bytes).map fun samples => (samples, [])

variable {xs rest : List UInt8} {count n : Nat}

theorem run_take (h : xs.length = count) : (take count).run (xs ++ rest) = some (xs, rest) := by
  subst h
  show (if xs.length ≤ (xs ++ rest).length then _ else _) = _
  rw [if_pos (by simp), List.take_left, List.drop_left]

@[simp] theorem run_number :
    (number count).run (lowFirst count n ++ rest) = some (n % 256 ^ count, rest) := by
  rw [number, StateT.run_bind, run_take (length_lowFirst count n), ← ofLowFirst_lowFirst]
  rfl

@[simp] theorem run_expect : (expect xs).run (xs ++ rest) = some ((), rest) := by
  rw [expect, StateT.run_bind, run_take rfl]
  show (if xs = xs then pure () else failure : Reader Unit).run rest = _
  rw [if_pos rfl]
  rfl

/-- The bits of samples are read back. -/
theorem words_samples (samples : List Float32) :
    words (samples.flatMap sampleBytes) = some (samples.map Float32.toBits) := by
  induction samples with
  | nil => rfl
  | cons x samples ih =>
    have hword : UInt32.ofNat (ofLowFirst (sampleBytes x)) = x.toBits := by
      have hlt : x.toBits.toNat < 256 ^ sampleSize := x.toBits.toNat_lt
      rw [sampleBytes, ofLowFirst_lowFirst, Nat.mod_eq_of_lt hlt]
      exact UInt32.ofNat_toNat
    rw [List.flatMap_cons, List.map_cons, ← hword]
    show (do return _ :: (← words (samples.flatMap sampleBytes))) = _
    rw [ih]
    rfl

theorem run_allWords (samples : List Float32) :
    allWords.run (samples.flatMap sampleBytes) = some (samples.map Float32.toBits, []) :=
  congrArg (Option.map fun samples => (samples, [])) (words_samples samples)

end Reader

/-- **What is read from a file**: how many bytes it says there are, how the samples are to be
played, and the bits of the samples. -/
structure Contents where
  size : Nat
  channels : Nat
  rate : Nat
  dataSize : Nat
  samples : List UInt32

open Reader in
/-- The reader of a whole file with samples that are floats of 32 bits. What follows from the
channels and the rate is passed over. -/
def contents : Reader Contents := do
  expect (tag "RIFF")
  let size ← number 4
  expect (tag "WAVE")
  expect (tag "fmt ")
  expect (lowFirst 4 40)
  expect (lowFirst 2 0xFFFE)
  let channels ← number 2
  let rate ← number 4
  let _ ← number 4
  let _ ← number 2
  expect (lowFirst 2 32)
  expect (lowFirst 2 22)
  expect (lowFirst 2 32)
  let _ ← number 4
  expect floatFormat
  expect (tag "data")
  let dataSize ← number 4
  let samples ← allWords
  return { size, channels, rate, dataSize, samples }

/-- **What a player reads from the bytes of a file.** -/
def read? (bytes : List UInt8) : Option Contents :=
  (contents.run bytes).map Prod.fst

/-- **Sound is read back from its bytes.** -/
theorem read?_encode (w : Wav) : read? w.encode = some {
    size := (60 + w.dataSize) % 256 ^ 4
    channels := w.channels.toNat
    rate := w.rate.toNat
    dataSize := w.dataSize % 256 ^ 4
    samples := w.samples.map Float32.toBits } := by
  have hchannels : w.channels.toNat % 256 ^ 2 = w.channels.toNat :=
    Nat.mod_eq_of_lt w.channels.toNat_lt
  have hrate : w.rate.toNat % 256 ^ 4 = w.rate.toNat := Nat.mod_eq_of_lt w.rate.toNat_lt
  have hrun : contents.run w.encode = some ({
      size := (60 + w.dataSize) % 256 ^ 4
      channels := w.channels.toNat % 256 ^ 2
      rate := w.rate.toNat % 256 ^ 4
      dataSize := w.dataSize % 256 ^ 4
      samples := w.samples.map Float32.toBits }, []) := by
    simp only [contents, encode, header, List.append_assoc, StateT.run_bind, Reader.run_expect,
      Reader.run_number, Reader.run_allWords, Option.bind_eq_bind, Option.bind_some,
      StateT.run_pure]
    rfl
  rw [hchannels, hrate] at hrun
  rw [read?, hrun]
  rfl

/-- **Bytes in which sound is stored.** A player reads from them the channels, the rate and the
samples, in their order. The lengths that the bytes declare are right where 32 bits are enough
for them. -/
def StoredIn (w : Wav) (bytes : List UInt8) : Prop :=
  ∃ c, read? bytes = some c ∧ c.channels = w.channels.toNat ∧ c.rate = w.rate.toNat ∧
    c.samples = w.samples.map Float32.toBits ∧
    (bytes.length < 2 ^ 32 →
      bytes.length = 8 + c.size ∧ c.dataSize = 4 * w.samples.length)

/-- **Sound is stored in the bytes it is written as.** -/
theorem storedIn_encode (w : Wav) : w.StoredIn w.encode := by
  refine ⟨_, w.read?_encode, rfl, rfl, rfl, fun hlength => ?_⟩
  rw [length_encode] at hlength ⊢
  have hsize : (60 + w.dataSize) % 256 ^ 4 = 60 + w.dataSize := Nat.mod_eq_of_lt (by omega)
  have hdata : w.dataSize % 256 ^ 4 = w.dataSize := Nat.mod_eq_of_lt (by omega)
  refine ⟨?_, ?_⟩
  · show _ = 8 + (60 + w.dataSize) % 256 ^ 4
    omega
  · show w.dataSize % 256 ^ 4 = _
    rw [hdata, dataSize, sampleSize, Nat.mul_comm]

end Wav

end FormulaSynth
