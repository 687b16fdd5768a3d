import FormulaSynth.Editor.Sound
import FormulaSynth.Proofs.Expr.Shape
import FormulaSynth.Proofs.Playback.Rendering
import Mathlib.Data.List.Basic
/-!
# Values and samples of one tree

The values of a tree from some sample on are asked for at once; its sound comes out of a
channel, in blocks, and every block in chunks. For a tree without randomness both have one
description, the values at each sample by itself, `Settings.stretch`: they are what is
answered (`Editor.values_gives`), and the sound has each of them on every channel of its frame
(`Editor.sound_gives`). In neither is there anything left of how it was divided.
-/

namespace FormulaSynth

/-! ## Stretches -/

namespace Settings

/-- **The values of a tree for a stretch of samples**, with the counters and the macros as
they are set. -/
def stretch (s : Settings) (tree : Expr) (first : UInt64) (count : Nat) : Block :=
  Renderer.pointwise { s.toClock with elapsed := first } s.macros tree count

variable (s : Settings) (tree : Expr)

theorem length_stretch (first : UInt64) (count : Nat) :
    (s.stretch tree first count).length = count :=
  Renderer.length_pointwise _ _ _ _

/-- A stretch goes on where a shorter one ends. -/
theorem stretch_add (first : UInt64) (m n : Nat) : s.stretch tree first (m + n) =
    s.stretch tree first m ++ s.stretch tree (first + UInt64.ofNat m) n :=
  Renderer.pointwise_add _ _ _ _ _

theorem getElem?_stretch (first : UInt64) {count i : Nat} (hi : i < count) :
    (s.stretch tree first count)[i]? =
      some (tree.value (Renderer.environment s.toClock s.macros (first + UInt64.ofNat i))) := by
  rw [stretch, Renderer.pointwise, List.getElem?_map, List.getElem?_range hi]
  rfl

/-- **A sample has one value in all stretches** that it is in. -/
theorem getElem?_stretch_eq (first : UInt64) {count frames i : Nat} (hi : i < count)
    (hframes : first.toNat + i < frames) :
    (s.stretch tree 0 frames)[first.toNat + i]? = (s.stretch tree first count)[i]? := by
  rw [getElem?_stretch s tree 0 hframes, getElem?_stretch s tree first hi, UInt64.ofNat_add,
    UInt64.ofNat_toNat, UInt64.zero_add]

end Settings

/-! ## Interleaving -/

/-- **Values as sound**: frame after frame, and the same on every channel of a frame. -/
def interleaved (channels : Nat) (values : Block) : List Float32 :=
  values.flatMap fun v => List.replicate channels (toSample v)

theorem interleaved_cons (channels : Nat) (v : Int32) (values : Block) :
    interleaved channels (v :: values) =
      List.replicate channels (toSample v) ++ interleaved channels values :=
  List.flatMap_cons

theorem interleaved_append (channels : Nat) (values more : Block) :
    interleaved channels (values ++ more) =
      interleaved channels values ++ interleaved channels more :=
  List.flatMap_append

theorem length_interleaved (channels : Nat) (values : Block) :
    (interleaved channels values).length = values.length * channels := by
  induction values with
  | nil => rw [List.length_nil, Nat.zero_mul]; rfl
  | cons v values ih =>
    rw [interleaved_cons, List.length_append, List.length_replicate, ih, List.length_cons,
      Nat.succ_mul, Nat.add_comm]

/-- **On every channel of a frame is its value.** -/
theorem getElem?_interleaved {channels j : Nat} (hj : j < channels) (values : Block) (k : Nat) :
    (interleaved channels values)[k * channels + j]? = values[k]?.map toSample := by
  induction values generalizing k with
  | nil => rfl
  | cons v values ih =>
    rw [interleaved_cons]
    cases k with
    | zero =>
      rw [Nat.zero_mul, Nat.zero_add, List.getElem?_append_left (by rwa [List.length_replicate]),
        List.getElem?_replicate, if_pos hj]
      rfl
    | succ k =>
      rw [List.getElem?_append_right (by rw [List.length_replicate, Nat.succ_mul]; omega),
        List.length_replicate, List.getElem?_cons_succ, ← ih]
      congr 1
      rw [Nat.succ_mul]
      omega

namespace Renderer

variable {names : NameSet} {tree : Expr} {r : Renderer}

/-- Zero is silence. -/
theorem toSample_zero : toSample 0 = 0 := rfl

/-- The samples of a chunk are its values, or zeros, on every channel. -/
theorem chunkSamples_eq (channels : Nat) (part : Nat × Option Block) :
    chunkSamples channels part = interleaved channels (valuesOrZeros part) := by
  obtain ⟨frames, values⟩ := part
  cases values with
  | some values => rfl
  | none =>
    show List.replicate (frames * channels) 0 = interleaved channels (List.replicate frames 0)
    rw [interleaved, List.flatMap_replicate, toSample_zero, List.flatten_replicate_replicate]

/-- **Chunks are heard as their values.** -/
theorem flatMap_chunkSamples (channels : Nat) (parts : List (Nat × Option Block)) :
    parts.flatMap (chunkSamples channels) = interleaved channels (parts.flatMap valuesOrZeros) := by
  rw [interleaved, List.flatMap_assoc]
  exact List.flatMap_congr fun part _ => chunkSamples_eq channels part

/-- A buffer of whole frames is filled with the tree, sample by sample. -/
theorem Plays.render_gives (h : r.Plays names tree) (he : tree.Evaluable) {channels : Nat}
    (hchannels : 0 < channels) (frames : Nat) (g : Random) :
    ∃ r', (r.render (frames * channels) channels).Gives g
        (interleaved channels (pointwise r.clock r.macros tree frames), r') g ∧
      r.After frames r' := by
  obtain ⟨parts, r', hchunks, hafter, hparts, -⟩ :=
    h.nextChunks_gives he (chunks r.maxBlock frames) g
  rw [total_chunks r.maxBlock_pos] at hafter hparts
  refine ⟨r', ?_, hafter⟩
  have hsamples : parts.flatMap (chunkSamples channels) ++
      List.replicate (frames * channels - frames * channels) 0 =
        interleaved channels (pointwise r.clock r.macros tree frames) := by
    rw [flatMap_chunkSamples, hparts, Nat.sub_self, List.replicate_zero,
      List.append_nil]
  rw [← hsamples]
  unfold render
  rw [if_neg (Nat.ne_of_gt hchannels), Nat.mul_div_cancel frames hchannels]
  exact hchunks.bind (Evaluation.gives_pure _ _)

end Renderer

namespace Editor

open Renderer (pointwise)

variable {names : NameSet} {tree : Expr} {r : Renderer} {channels : Nat}

/-! ## Block after block -/

/-- **Block after block plays the tree sample by sample**, behind what was played before. Every
block takes the renderer on by its frames, so the next begins where it ends. -/
theorem playBlocks_gives {size : Nat} (hsize : 0 < size) (hchannels : 0 < channels)
    (he : tree.Evaluable) (h : r.Plays names tree) (remaining : Nat)
    (done : List (List Float32)) (g : Random) :
    ∃ done', (playBlocks size channels r remaining done).Gives g done' g ∧
      done'.reverse.flatten = done.reverse.flatten ++
        interleaved channels (pointwise r.clock r.macros tree remaining) := by
  induction remaining using Nat.strongRecOn generalizing r done with
  | ind remaining ih =>
    rw [playBlocks]
    by_cases hend : remaining = 0
    · subst hend
      rw [if_pos (.inl rfl)]
      exact ⟨done, Evaluation.gives_pure _ _, (List.append_nil _).symm⟩
    · rw [if_neg (by omega)]
      obtain ⟨r', hrender, hafter⟩ := h.render_gives he hchannels (min remaining size) g
      obtain ⟨done', hrest, hdone⟩ := ih (remaining - min remaining size) (by omega)
        (h.after hafter) (interleaved channels
          (pointwise r.clock r.macros tree (min remaining size)) :: done)
      refine ⟨done', hrender.bind hrest, ?_⟩
      have hsplit : remaining = min remaining size + (remaining - min remaining size) := by omega
      rw [hdone, hafter.clock_eq, hafter.macros_eq, List.reverse_cons, List.flatten_append,
        List.flatten_singleton, List.append_assoc, ← interleaved_append, ← Renderer.pointwise_add,
        ← hsplit]

/-! ## Both forms -/

section Forms

variable {e : Editor}

/-- A renderer for the formulas of a session plays a tree over its variables, wherever it gets
that from. -/
theorem plays_renderer (e : Editor) (clock : Clock) (maxBlock : Nat) (macros : Macros)
    (source : TreeSource) (hsource : source.newest? = some tree) (hrand : tree.RandFree)
    (hwithin : tree.Within e.compiler.vocabulary) :
    ({ e.renderer clock maxBlock with macros, source } : Renderer).Plays
      e.compiler.vocabulary.variableNames tree where
  bound := (Renderer.plays_new clock maxBlock hrand hwithin.variables_mem).bound
  newest := hsource
  randFree := hrand
  variables_mem := hwithin.variables_mem

/-- **The values of a tree are those of its samples**, however many there are. -/
theorem values_gives (s : Settings) (hrand : tree.RandFree)
    (hwithin : tree.Within e.compiler.vocabulary) (first : UInt64) (count : Nat) (g : Random) :
    (e.values s tree first count).Gives g (s.stretch tree first count) g := by
  have hplays := e.plays_renderer { s.toClock with elapsed := first } count s.macros
    (.fixed (some tree)) rfl hrand hwithin
  obtain ⟨r', hblock, -⟩ := hplays.nextBlock_gives hwithin.saturated.supplied.evaluable count g
  exact hblock.bind (Evaluation.gives_pure _ _)

/-- The samples of a tree are those of its values, however long the blocks are. -/
theorem samples_gives {s : Settings} {channel : Channel Expr}
    (hblock : 0 < s.audio.blockSize) (hchannels : 0 < s.audio.channels.toNat)
    (hchannel : (TreeSource.subscribed channel).newest? = some tree) (hrand : tree.RandFree)
    (hwithin : tree.Within e.compiler.vocabulary) (frames : Nat) (g : Random) :
    (e.samples s channel frames).Gives g
      (interleaved s.audio.channels.toNat (s.stretch tree 0 frames)) g := by
  have hplays := e.plays_renderer s.toClock s.audio.blockSize s.macros (.subscribed channel)
    hchannel hrand hwithin
  obtain ⟨done, hblocks, hdone⟩ := playBlocks_gives hblock hchannels
    hwithin.saturated.supplied.evaluable hplays frames [] g
  have hsamples : done.reverse.flatten =
      interleaved s.audio.channels.toNat (s.stretch tree 0 frames) := hdone
  rw [← hsamples]
  exact hblocks.bind (Evaluation.gives_pure _ _)

/-- **The sound of a tree that is pending in a channel**, or that the subscriber has. -/
theorem sound_gives {s : Settings} {channel : Channel Expr}
    (hblock : 0 < s.audio.blockSize) (hchannels : 0 < s.audio.channels.toNat)
    (hchannel : (TreeSource.subscribed channel).newest? = some tree) (hrand : tree.RandFree)
    (hwithin : tree.Within e.compiler.vocabulary) (frames : Nat) (g : Random) :
    (e.sound s channel frames).Gives g
      { channels := s.audio.channels, rate := s.audio.sampleRate,
        samples := interleaved s.audio.channels.toNat (s.stretch tree 0 frames) } g :=
  (samples_gives hblock hchannels hchannel hrand hwithin frames g).bind (Evaluation.gives_pure _ _)

end Forms

end Editor

end FormulaSynth
