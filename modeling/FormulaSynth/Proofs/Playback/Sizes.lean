import FormulaSynth.Proofs.Playback.Buffers
import FormulaSynth.Proofs.Playback.Runs
/-!
# Sizes of blocks

A renderer keeps the blocks that its variables are bound to, and overwrites them for each chunk.
They are made longer or shorter for it, since requests are of all sizes, and the last chunk of a
request may be any part of a full one. Operations go through their blocks side by side, so a block
left at another length would give too many values or too few; and room was only made for the
greatest length.

`Renderer.Sized` is what holds between two requests, or between two chunks of one: the names of a
set are bound, to blocks of one length within the limit. `Renderer.Chunk.Sized` is what holds when
a tree is evaluated: the blocks are as long as the chunk.

An action evaluates chunks and does nothing else that could draw or fail. The chunks are known
beforehand, since no evaluation changes what comes after it (`Renderer.upcoming`). So an action is
the evaluation of its chunks, all of them sized, and leaves a sized renderer
(`Renderer.Sized.exists_evaluates`), and a run leads from sized renderers to sized renderers.
-/

namespace FormulaSynth

namespace Renderer

variable {names : NameSet} {limit n : Nat} {r : Renderer}

/-! ## Chunks to come -/

/-- **A chunk as it is evaluated**: the tree, if there is one to play, what the variables are bound
to, and the number of samples. -/
structure Chunk where
  tree? : Option Expr
  bindings : Bindings
  frames : Nat

/-- The values of a chunk, if there is a tree. -/
def Chunk.values (c : Chunk) : Evaluation (Option Block) :=
  match c.tree? with
  | none => pure none
  | some tree => some <$> tree.eval c.bindings c.frames

/-- **The evaluation of a chunk**: its length and its values. -/
def Chunk.evaluate (c : Chunk) : Evaluation (Nat × Option Block) := do
  let values ← c.values
  pure (c.frames, values)

/-- The next chunk of a renderer. -/
def chunk (r : Renderer) (frames : Nat) : Chunk where
  tree? := r.source.newest?
  bindings := (r.bind frames).bindings
  frames := frames

theorem nextChunk_eq_values (r : Renderer) (frames : Nat) : r.nextChunk frames = (do
    let values ← (r.chunk frames).values
    pure (values, r.afterChunk frames)) := by
  rw [nextChunk_eq, Chunk.values, chunk]
  cases r.source.newest? with
  | none => rfl
  | some tree => rfl

/-- **The next chunks of a renderer**, of some lengths. -/
def upcoming (r : Renderer) : List Nat → List Chunk
  | [] => []
  | frames :: rest => r.chunk frames :: (r.afterChunk frames).upcoming rest

theorem map_frames_upcoming (r : Renderer) (lengths : List Nat) :
    (r.upcoming lengths).map Chunk.frames = lengths := by
  induction lengths generalizing r with
  | nil => rfl
  | cons frames rest ih => rw [upcoming, List.map_cons, ih, chunk]

/-- **Chunk after chunk is evaluated**, and nothing else is done that could fail. -/
theorem nextChunks_eq (r : Renderer) (lengths : List Nat) : r.nextChunks lengths = (do
    let parts ← (r.upcoming lengths).mapM Chunk.evaluate
    pure (parts, lengths.foldl afterChunk r)) := by
  induction lengths generalizing r with
  | nil => simp only [nextChunks, upcoming, List.mapM_nil, pure_bind, List.foldl_nil]
  | cons frames rest ih =>
    simp only [nextChunks, nextChunk_eq_values, ih, upcoming, List.mapM_cons, Chunk.evaluate,
      bind_assoc, pure_bind, List.foldl_cons]
    rfl

/-! ## Sized renderers -/

/-- **A chunk with blocks of the right size**: the names of a set are bound, each to a value for
every sample, and the samples are within the limit. -/
structure Chunk.Sized (names : NameSet) (limit : Nat) (c : Chunk) : Prop where
  bound : c.bindings.map Prod.fst = names.toList
  length_eq : ∀ entry ∈ c.bindings, entry.2.length = c.frames
  frames_le : c.frames ≤ limit

/-- **A renderer with blocks of one size**: the names of a set are bound, to blocks of the same
length, which is not greater than that of the greatest chunk. -/
structure Sized (names : NameSet) (limit : Nat) (r : Renderer) : Prop where
  maxBlock_eq : r.maxBlock = limit
  bound : r.bindings.map Prod.fst = names.toList
  exists_length : ∃ length ≤ limit, ∀ entry ∈ r.bindings, entry.2.length = length

/-- At first there is room for the greatest chunk. -/
theorem sized_new (clock : Clock) (names : NameSet) (maxBlock : Nat) :
    (new clock names maxBlock).Sized names (max maxBlock 1) where
  maxBlock_eq := rfl
  bound := map_fst_new clock names maxBlock
  exists_length := by
    refine ⟨max maxBlock 1, Nat.le_refl _, fun entry hentry => ?_⟩
    obtain ⟨name, -, rfl⟩ := List.mem_map.mp hentry
    exact List.length_replicate

namespace Sized

theorem pos (h : r.Sized names limit) : 0 < limit := h.maxBlock_eq ▸ r.maxBlock_pos

/-- Its clock, its macros and its trees may change. -/
theorem of_bindings_eq (h : r.Sized names limit) {r' : Renderer}
    (hbindings : r'.bindings = r.bindings) (hmax : r'.maxBlock = r.maxBlock) :
    r'.Sized names limit where
  maxBlock_eq := hmax.trans h.maxBlock_eq
  bound := hbindings ▸ h.bound
  exists_length := hbindings ▸ h.exists_length

/-- Nothing done to its channel reaches the blocks. -/
theorem onChannel (h : r.Sized names limit) (f : Channel Expr → Channel Expr) :
    (r.onChannel f).Sized names limit := by
  unfold Renderer.onChannel
  split
  · exact h
  · exact h.of_bindings_eq rfl rfl

/-- A chunk within the limit is evaluated with blocks of its size. -/
theorem chunk (h : r.Sized names limit) (hn : n ≤ limit) :
    (r.chunk n).Sized names limit where
  bound := (r.map_fst_bind n).trans h.bound
  length_eq _ hentry := length_of_mem_bind hentry
  frames_le := hn

/-- It leaves them at its size. -/
theorem afterChunk (h : r.Sized names limit) (hn : n ≤ limit) :
    (r.afterChunk n).Sized names limit where
  maxBlock_eq := h.maxBlock_eq
  bound := (r.map_fst_bind n).trans h.bound
  exists_length := ⟨n, hn, fun _ hentry => length_of_mem_bind hentry⟩

/-- So chunk after chunk is evaluated with blocks of its size. -/
theorem upcoming (h : r.Sized names limit) {lengths : List Nat}
    (hlengths : ∀ n ∈ lengths, n ≤ limit) :
    ∀ c ∈ r.upcoming lengths, c.Sized names limit := by
  induction lengths generalizing r with
  | nil => exact fun c hc => absurd hc List.not_mem_nil
  | cons n rest ih =>
    obtain ⟨hn, hrest⟩ := List.forall_mem_cons.mp hlengths
    exact List.forall_mem_cons.mpr ⟨h.chunk hn, ih (h.afterChunk hn) hrest⟩

theorem foldl_afterChunk (h : r.Sized names limit) {lengths : List Nat}
    (hlengths : ∀ n ∈ lengths, n ≤ limit) :
    (lengths.foldl Renderer.afterChunk r).Sized names limit := by
  induction lengths generalizing r with
  | nil => exact h
  | cons n rest ih =>
    obtain ⟨hn, hrest⟩ := List.forall_mem_cons.mp hlengths
    exact ih (h.afterChunk hn) hrest

end Sized

/-! ## The chunks of an action -/

/-- There is a sample in every chunk. -/
theorem pos_of_mem_chunks {frames : Nat} (hlimit : 0 < limit) (h : n ∈ chunks limit frames) :
    0 < n := by
  unfold chunks at h
  obtain h | h := List.mem_append.mp h
  · rw [List.eq_of_mem_replicate h]
    exact hlimit
  · split at h
    case isTrue => exact absurd h List.not_mem_nil
    case isFalse hne =>
      rw [List.mem_singleton.mp h]
      exact Nat.pos_of_ne_zero hne

namespace Action

variable {a : Action}

/-- **The number of samples that an action asks for.** Of a buffer these are its whole frames. -/
def frames : Action → Nat
  | nextChunk frames | nextBlock frames => frames
  | render length channels => length / channels
  | _ => 0

/-- **The lengths of the chunks that an action asks for.** -/
def lengths (limit : Nat) : Action → List Nat
  | nextChunk frames => [frames]
  | nextBlock frames => if frames = 0 then [0] else chunks limit frames
  | render length channels => chunks limit (length / channels)
  | _ => []

/-- **An action that can be asked of a renderer.** Requests may be of any size. A chunk by itself
is part of a request between whose chunks something else is done, so it is within the limit. -/
def Fits (limit : Nat) : Action → Prop
  | nextChunk frames => frames ≤ limit
  | _ => True

/-- **An action asks for one chunk, or divides what it asks for into chunks.** That may be nothing,
which is no chunk. -/
theorem lengths_cases (ha : a.Fits limit) :
    (a.lengths limit = [a.frames] ∧ a.frames ≤ limit) ∨ a.lengths limit = chunks limit a.frames := by
  cases a with
  | nextChunk frames => exact Or.inl ⟨rfl, ha⟩
  | nextBlock frames =>
    rw [lengths]
    split
    case isTrue h =>
      subst h
      exact Or.inl ⟨rfl, Nat.zero_le limit⟩
    case isFalse => exact Or.inr rfl
  | render length channels => exact Or.inr rfl
  | reset | setClock | setMacros | withTree | withChannel | publish | reclaim | dropPublisher =>
    exact Or.inr (by simp [lengths, frames, chunks])

theorem total_lengths (ha : a.Fits limit) (hlimit : 0 < limit) :
    total (a.lengths limit) = a.frames := by
  obtain ⟨h, -⟩ | h := a.lengths_cases ha
  · rw [h, total, total, Nat.add_zero]
  · rw [h, total_chunks hlimit]

theorem le_of_mem_lengths (ha : a.Fits limit) (hlimit : 0 < limit) (hn : n ∈ a.lengths limit) :
    n ≤ limit := by
  obtain ⟨h, hle⟩ | h := a.lengths_cases ha
  · rw [h, List.mem_singleton] at hn
    exact hn ▸ hle
  · exact le_of_mem_chunks hlimit (h ▸ hn)

/-- Only if no sample is asked for is there a chunk without any. -/
theorem pos_of_mem_lengths (ha : a.Fits limit) (hlimit : 0 < limit) (hframes : 0 < a.frames)
    (hn : n ∈ a.lengths limit) : 0 < n := by
  obtain ⟨h, -⟩ | h := a.lengths_cases ha
  · rw [h, List.mem_singleton] at hn
    exact hn ▸ hframes
  · exact pos_of_mem_chunks hlimit (h ▸ hn)

end Action

/-! ## An action evaluates its chunks -/

/-- **What an action evaluates.** Whatever it draws and wherever it fails, it does so by evaluating
these chunks, one after the other. What comes of it depends on what they give; the renderer after
it does not. -/
def Evaluates (r : Renderer) (a : Action) (evaluated : List Chunk) (r' : Renderer) : Prop :=
  ∃ output : List (Nat × Option Block) → Output, r.perform a = (do
    let parts ← evaluated.mapM Chunk.evaluate
    pure (output parts, r'))

theorem evaluates_nil {a : Action} {output : Output} {r' : Renderer}
    (h : r.perform a = pure (output, r')) : r.Evaluates a [] r' :=
  ⟨fun _ => output, by rw [h, List.mapM_nil, pure_bind]⟩

/-- What is evaluated says which renderer is left. -/
theorem Evaluates.eq_of_gives {a : Action} {evaluated : List Chunk} {r' r'' : Renderer}
    (h : r.Evaluates a evaluated r') {g g' : Random} {output : Output}
    (hgives : (r.perform a).Gives g (output, r'') g') : r'' = r' := by
  obtain ⟨outputs, heq⟩ := h
  rw [heq] at hgives
  obtain ⟨parts, g₁, -, hpure⟩ := hgives.of_bind
  exact congrArg Prod.snd hpure.of_pure.1

theorem evaluates_nextChunk (r : Renderer) (frames : Nat) :
    r.Evaluates (.nextChunk frames) (r.upcoming [frames]) (r.afterChunk frames) := by
  refine ⟨fun parts => .values (answer parts), ?_⟩
  simp only [perform, nextChunk_eq_values, upcoming, Chunk.evaluate, List.mapM_cons,
    List.mapM_nil, bind_assoc, pure_bind, map_bind, map_pure, answer_singleton]
  rfl

theorem evaluates_nextBlock (r : Renderer) (frames : Nat) :
    let lengths := if frames = 0 then [0] else chunks r.maxBlock frames
    r.Evaluates (.nextBlock frames) (r.upcoming lengths) (lengths.foldl afterChunk r) := by
  refine ⟨fun parts => .values (answer parts), ?_⟩
  simp only [perform, nextBlock_eq, nextChunks_eq, bind_assoc, pure_bind, map_bind, map_pure]
  rfl

theorem evaluates_render (r : Renderer) (length channels : Nat) :
    let lengths := chunks r.maxBlock (length / channels)
    r.Evaluates (.render length channels) (r.upcoming lengths) (lengths.foldl afterChunk r) := by
  have hframes : (if channels = 0 then 0 else length / channels) = length / channels := by
    split
    case isTrue h => rw [h, Nat.div_zero]
    case isFalse => rfl
  refine ⟨fun parts => .samples (parts.flatMap (chunkSamples channels) ++
    List.replicate (length - length / channels * channels) 0), ?_⟩
  simp only [perform, render, hframes, nextChunks_eq, bind_assoc, pure_bind, map_bind, map_pure]
  rfl

/-! ## Sized from action to action -/

namespace Sized

variable {a : Action}

/-- **An action evaluates its chunks** and leaves a sized renderer. -/
theorem exists_evaluates (h : r.Sized names limit) (ha : a.Fits limit) :
    ∃ r' : Renderer, r'.Sized names limit ∧
      r.Evaluates a (r.upcoming (a.lengths limit)) r' := by
  have hafter := h.foldl_afterChunk fun n hn => a.le_of_mem_lengths ha h.pos hn
  obtain rfl := h.maxBlock_eq
  cases a with
  | nextChunk frames => exact ⟨_, hafter, r.evaluates_nextChunk frames⟩
  | nextBlock frames => exact ⟨_, hafter, r.evaluates_nextBlock frames⟩
  | render length channels => exact ⟨_, hafter, r.evaluates_render length channels⟩
  | reset | setClock | setMacros | withTree | withChannel =>
    refine ⟨_, ?_, evaluates_nil rfl⟩
    exact h.of_bindings_eq rfl rfl
  | publish | reclaim | dropPublisher => exact ⟨_, h.onChannel _, evaluates_nil rfl⟩

/-- **A run leaves a sized renderer.** -/
theorem of_run_gives (h : r.Sized names limit) {actions : List Action}
    (hactions : ∀ a ∈ actions, a.Fits limit) {g g' : Random} {outputs : List Output}
    {r' : Renderer} (hrun : (r.run actions).Gives g (outputs, r') g') :
    r'.Sized names limit := by
  induction actions generalizing r g outputs with
  | nil =>
    obtain ⟨heq, -⟩ := hrun.of_pure
    cases heq
    exact h
  | cons a rest ih =>
    obtain ⟨ha, hrest⟩ := List.forall_mem_cons.mp hactions
    obtain ⟨⟨output, r₁⟩, g₁, hfirst, hlater⟩ := hrun.of_bind
    obtain ⟨⟨later, r₂⟩, g₂, hgives, hpure⟩ := hlater.of_bind
    obtain ⟨heq, rfl⟩ := hpure.of_pure
    cases heq
    -- what the first action gives says nothing of its renderer; what it evaluates does
    obtain ⟨r₃, hsized, hevaluates⟩ := h.exists_evaluates ha
    obtain rfl := hevaluates.eq_of_gives hfirst
    exact ih hsized hrest hgives

end Sized

/-! ## Bindings stay sized -/

/-- **Bindings stay sized.** Whatever has happened to a renderer since it was new, it has bound
the names it was made for, to blocks of one length, which is not greater than that of its greatest
chunk. Whatever is asked of it next evaluates chunks whose blocks are as long as they are, which
have a sample each if any sample is asked for, which are within the limit, and which make up what
is asked for; nothing else is evaluated, and the renderer is sized again behind it. As in
`Renderer.render`, the limit times the channels is taken to fit a machine word. -/
theorem bindings_sized {clock : Clock} {names : NameSet} {maxBlock : Nat}
    {actions : List Action} (hactions : ∀ a ∈ actions, a.Fits (max maxBlock 1))
    {g g' : Random} {outputs : List Output} {r : Renderer}
    (hrun : ((new clock names maxBlock).run actions).Gives g (outputs, r) g') :
    r.Sized names (max maxBlock 1) ∧
      ∀ a : Action, a.Fits (max maxBlock 1) →
        let evaluated := r.upcoming (a.lengths (max maxBlock 1))
        (∃ r' : Renderer, r'.Sized names (max maxBlock 1) ∧ r.Evaluates a evaluated r') ∧
          (∀ c ∈ evaluated, c.Sized names (max maxBlock 1)) ∧
          (0 < a.frames → ∀ c ∈ evaluated, 0 < c.frames) ∧
          total (evaluated.map Chunk.frames) = a.frames := by
  have hsized := (sized_new clock names maxBlock).of_run_gives hactions hrun
  have hlimit := max_one_pos maxBlock
  refine ⟨hsized, fun a ha => ⟨hsized.exists_evaluates ha,
    hsized.upcoming fun n hn => a.le_of_mem_lengths ha hlimit hn, fun hframes c hc => ?_, ?_⟩⟩
  · refine a.pos_of_mem_lengths ha hlimit hframes ?_
    rw [← r.map_frames_upcoming (a.lengths (max maxBlock 1))]
    exact List.mem_map_of_mem hc
  · rw [map_frames_upcoming, a.total_lengths ha hlimit]

/-- Requests of three samples and of four frames, a chunk with a publication behind it, and five
samples after that, in chunks of two. -/
theorem bindings_sized_five :
    let names := NameSet.ofList ["t", "x"]
    let tree : Expr := .binary .add (.var "x") (.var "t")
    let actions : List Action := [.withTree tree, .nextBlock 3, .reset, .withChannel (.new 1),
      .nextChunk 1, .publish tree, .render 9 2]
    (∀ a ∈ actions, a.Fits 2) ∧ ∃ outputs r,
      (∀ g, ((new {} names 2).run actions).Gives g (outputs, r) g) ∧ r.Sized names 2 ∧
        (∃ r', r'.Sized names 2 ∧ r.Evaluates (.nextBlock 5) (r.upcoming [2, 2, 1]) r') ∧
        ∀ c ∈ r.upcoming [2, 2, 1], c.Sized names 2 ∧ 0 < c.frames := by
  intro names tree actions
  have htree : tree.Still names := ⟨⟨trivial, trivial⟩, ⟨trivial, trivial⟩, by decide⟩
  have hnew : (new {} names 2).Still names :=
    ⟨map_fst_new {} names 2, fun _ hmem => absurd hmem List.not_mem_nil⟩
  have hfits : ∀ a ∈ actions, a.Fits 2 := by simp [actions, Action.Fits]
  have htrees : ∀ a ∈ actions, ∀ tree ∈ a.trees, tree.Still names := by
    simp [actions, Action.trees, TreeSource.trees, Channel.new, htree]
  obtain ⟨⟨outputs, r⟩, -, hgives⟩ := hnew.run_drawsNothing htrees
  obtain ⟨hsized, hnext⟩ := bindings_sized hfits (hgives (Random.ofSeed 0))
  obtain ⟨hevaluates, hchunks, hpos, -⟩ := hnext (.nextBlock 5) trivial
  exact ⟨hfits, outputs, r, hgives, hsized, hevaluates,
    fun c hc => ⟨hchunks c hc, hpos (by decide) c hc⟩⟩

end Renderer

end FormulaSynth
