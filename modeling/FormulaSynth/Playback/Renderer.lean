import FormulaSynth.Expr.Eval
import FormulaSynth.Playback.Channel
import FormulaSynth.Playback.Clock
import FormulaSynth.Playback.Macros
import FormulaSynth.Playback.Sample
import FormulaSynth.Vocabulary
/-!
# Rendering

A renderer plays a tree: for every sample it works out the counters, binds them
and the macros to their variables, and evaluates. It works in chunks of limited
length, looks for a new tree before each chunk, and moves its clock on after it,
whether or not there was a tree to play.

A request longer than the limit is divided into chunks. Where some of them find a
tree and others do not, those without one read as zeros.
-/

namespace FormulaSynth

/-- Where a renderer gets its tree from: it has been given one, or takes the
newest from a channel. -/
inductive TreeSource where
  | fixed (tree : Option Expr)
  | subscribed (channel : Channel Expr)

namespace TreeSource

/-- The source with the newest tree taken over. -/
def refresh : TreeSource → TreeSource
  | fixed tree => fixed tree
  | subscribed channel => subscribed channel.refresh

/-- The tree there is to play. -/
def tree? : TreeSource → Option Expr
  | fixed tree => tree
  | subscribed channel => channel.current

end TreeSource

/-- **The state of playing a tree.** -/
structure Renderer where
  clock : Clock
  macros : Macros := {}
  /-- The values last bound to the variables. -/
  bindings : Bindings
  /-- The most samples evaluated at once. -/
  maxBlock : Nat
  maxBlock_pos : 0 < maxBlock
  source : TreeSource := .fixed none

namespace Renderer

/-- A chunk has at least one sample. -/
theorem max_one_pos (maxBlock : Nat) : 0 < max maxBlock 1 := by omega

/-- **A renderer without a tree**, for formulas over some variables. -/
def new (clock : Clock) (names : NameSet) (maxBlock : Nat) : Renderer where
  clock := clock
  bindings := names.toList.map fun name => (name, List.replicate (max maxBlock 1) 0)
  maxBlock := max maxBlock 1
  maxBlock_pos := max_one_pos maxBlock

/-- The renderer with a tree of its own to play. -/
def withTree (r : Renderer) (tree : Expr) : Renderer :=
  { r with source := .fixed (some tree) }

/-- The renderer with a channel to take trees from. -/
def withChannel (r : Renderer) (channel : Channel Expr) : Renderer :=
  { r with source := .subscribed channel }

/-- The channel a renderer takes trees from. -/
def channel? (r : Renderer) : Option (Channel Expr) :=
  match r.source with
  | .fixed _ => none
  | .subscribed channel => some channel

/-- The renderer with its clock at the beginning. -/
def reset (r : Renderer) : Renderer :=
  { r with clock := r.clock.reset }

/-! ## Bindings -/

/-- A block cut off, or filled up with zeros, to have one value for each of `n` samples. -/
def resize (block : Block) (n : Nat) : Block :=
  block.take n ++ List.replicate (n - block.length) 0

/-- **The block of a variable overwritten** with its values at the samples from the clock
on. A variable that is neither a counter nor a macro is zero. -/
def refill (r : Renderer) (name : String) (block : Block) : Block :=
  if name = sampleCounter then
    block.mapIdx fun i _ => r.clock.sampleCounter (r.clock.elapsed + UInt64.ofNat i)
  else if name = tempoCounter then
    block.mapIdx fun i _ => r.clock.tempoCounter (r.clock.elapsed + UInt64.ofNat i)
  else
    block.map fun _ => (r.macros.get? name).getD 0

/-- **The renderer with its variables bound for the next samples**, in the blocks that
they were bound to before. -/
def bind (r : Renderer) (frames : Nat) : Renderer :=
  { r with bindings :=
      r.bindings.map fun (name, block) => (name, r.refill name (resize block frames)) }

/-! ## Chunks -/

/-- The lengths of the chunks a number of samples is divided into: all of the
greatest length but the last. -/
def chunks (maxBlock frames : Nat) : List Nat :=
  List.replicate (frames / maxBlock) maxBlock ++
    (if frames % maxBlock = 0 then [] else [frames % maxBlock])

/-- No chunk is longer than the limit. -/
theorem le_of_mem_chunks {maxBlock frames n : Nat} (h : 0 < maxBlock)
    (hn : n ∈ chunks maxBlock frames) : n ≤ maxBlock := by
  have hm := Nat.mod_lt frames h
  unfold chunks at hn
  rcases List.mem_append.1 hn with hn | hn
  · exact Nat.le_of_eq (List.eq_of_mem_replicate hn)
  · split at hn
    · simp at hn
    · rw [List.mem_singleton.1 hn]
      exact Nat.le_of_lt hm

/-- **The values of the next chunk**, if there is a tree to play, and the renderer
after it. -/
def nextChunk (r : Renderer) (frames : Nat) : Evaluation (Option Block × Renderer) := do
  let r := r.bind frames
  let r := { r with source := r.source.refresh }
  let values ← match r.source.tree? with
    | none => pure none
    | some tree => some <$> tree.eval r.bindings frames
  pure (values, { r with clock := r.clock.advance (UInt64.ofNat frames) })

/-- The values of chunk after chunk, each with its length. -/
def nextChunks (r : Renderer) :
    List Nat → Evaluation (List (Nat × Option Block) × Renderer)
  | [] => pure ([], r)
  | frames :: rest => do
    let (values, r) ← r.nextChunk frames
    let (later, r) ← r.nextChunks rest
    pure ((frames, values) :: later, r)

/-- The values of a chunk, zeros if it had no tree. -/
def valuesOrZeros : Nat × Option Block → Block
  | (_, some values) => values
  | (frames, none) => List.replicate frames 0

/-- **The values of the next samples**, if any of them had a tree to play. Asking
for no sample still looks for a new tree. -/
def nextBlock (r : Renderer) (frames : Nat) : Evaluation (Option Block × Renderer) := do
  let lengths := if frames = 0 then [0] else chunks r.maxBlock frames
  let (parts, r) ← r.nextChunks lengths
  if parts.any fun part => part.2.isSome then
    pure (some (parts.flatMap valuesOrZeros), r)
  else
    pure (none, r)

/-! ## Samples -/

/-- The samples of a chunk for a number of channels that all carry the same, one
frame after another. A chunk without a tree is silent. -/
def chunkSamples (channels : Nat) : Nat × Option Block → List Float32
  | (_, some values) => values.flatMap fun v => List.replicate channels (toSample v)
  | (frames, none) => List.replicate (frames * channels) 0

/-- **The samples of a buffer of `length` places**, interleaved for a number of
channels. What does not make a whole frame at the end stays silent. The places of a
chunk, the limit times the channels, are taken to be a number that a machine word
holds. -/
def render (r : Renderer) (length channels : Nat) :
    Evaluation (List Float32 × Renderer) := do
  let frames := if channels = 0 then 0 else length / channels
  let (parts, r) ← r.nextChunks (chunks r.maxBlock frames)
  pure (parts.flatMap (chunkSamples channels) ++
    List.replicate (length - frames * channels) 0, r)

end Renderer

end FormulaSynth
