import FormulaSynth.Proofs.Editor.Sound
/-!
# Buffers and values

A renderer can be asked for the values of the next samples, and it can be given a buffer to
fill. The two go about it in loops of their own. The first counts down the samples that are
left and collects a chunk of values at a time (`Renderer.collect`). The second silences the
buffer, cuts it into pieces with room for the greatest chunk on all channels, and writes over
each piece what a chunk of its whole frames gives, until a piece has no whole frame
(`Renderer.fill`). Nothing but arithmetic makes them cut at the same places: the room of a
chunk is a multiple of the number of channels, so a piece has as many whole frames as the
other loop counts samples for, and only the last piece can have a frame that is not whole.

As computations both are what `Renderer.nextBlock` and `Renderer.render` say, the division
of a request into chunks being worked out beforehand there. So the samples of a buffer are the
values of the same request, presented on each channel (`Renderer.render_agrees`). This is an
equation between computations: they draw the same, fail the same and leave the same renderer.

It is needed that the values of a chunk are as many as its samples, also if they are drawn. An
evaluation has that from the bindings, which are all made to be of that length.
-/

namespace FormulaSynth

/-! ## As many values as samples -/

/-- **An evaluation gives as many values as the block has samples**, if what is bound is of
that length. -/
theorem Expr.length_of_gives {b : Bindings} {n : Nat}
    (hb : ∀ name block, b.lookup name = some block → block.length = n) {e : Expr}
    {g g' : Random} {values : Block} (h : (e.eval b n).Gives g values g') :
    values.length = n := by
  induction e using inductionOn generalizing g g' values with
  | const v =>
    obtain ⟨rfl, -⟩ := Evaluation.Gives.of_pure h
    exact List.length_replicate
  | var name =>
    cases hl : b.lookup name with
    | none =>
      rw [eval_var_of_unbound hl] at h
      cases h
    | some block =>
      rw [eval_var_of_lookup hl] at h
      obtain ⟨rfl, -⟩ := h.of_pure
      exact hb name _ hl
  | binary op l r hl _ =>
    rw [eval] at h
    obtain ⟨x, g₁, hx, hrest⟩ := h.of_bind
    obtain ⟨y, g₂, -, hpure⟩ := hrest.of_bind
    obtain ⟨rfl, -⟩ := hpure.of_pure
    rw [length_combine, hl hx]
  | call name f args ih =>
    by_cases hf : f = .rand
    · subst hf
      obtain ⟨rfl, -⟩ := (Evaluation.gives_draw n g).unique h
      exact g.length_values n
    · obtain ⟨w, hw⟩ := Builtin.exists_onWord? hf
      cases args with
      | nil =>
        rw [eval_call_nil hw] at h
        cases h
      | cons a rest =>
        rw [eval_call_cons hw] at h
        obtain ⟨x, g₁, hx, hpure⟩ := h.of_bind
        obtain ⟨rfl, -⟩ := hpure.of_pure
        rw [List.length_map, ih a List.mem_cons_self hx]

namespace Renderer

variable {r r' : Renderer} {g g' : Random} {frames length channels : Nat}

/-- **All blocks are made to be of the length asked for**, whatever their lengths were. -/
theorem length_of_mem_bind {entry : String × Block} (h : entry ∈ (r.bind frames).bindings) :
    entry.2.length = frames := by
  obtain ⟨⟨name, block⟩, -, rfl⟩ := List.mem_map.mp h
  show (r.refill name (resize block frames)).length = frames
  rw [refill_resize, List.length_map, List.length_range]

/-- Everything is bound for as many samples as are asked for. -/
theorem length_of_lookup_bind {name : String} {block : Block}
    (h : (r.bind frames).bindings.lookup name = some block) : block.length = frames := by
  obtain ⟨before, after, hsplit, -⟩ := List.lookup_eq_some_iff.mp h
  have hmem : (name, block) ∈ (r.bind frames).bindings := by
    rw [hsplit]
    exact List.mem_append_right _ List.mem_cons_self
  exact length_of_mem_bind hmem

/-- **What a chunk comes to**: the renderer after it, and as many values as it has samples, if
there is a tree. -/
theorem of_nextChunk_gives {values : Option Block}
    (h : (r.nextChunk frames).Gives g (values, r') g') :
    r' = r.afterChunk frames ∧ ∀ block, values = some block → block.length = frames := by
  rw [nextChunk_eq] at h
  cases htree : r.source.newest? with
  | none =>
    rw [htree] at h
    cases h
    exact ⟨rfl, fun block hblock => nomatch hblock⟩
  | some tree =>
    rw [htree] at h
    obtain ⟨values', g₁, hvalues, hpure⟩ := h.of_bind
    obtain ⟨block, hblock, rfl⟩ := hvalues.of_map
    cases hpure
    refine ⟨rfl, fun block' hblock' => ?_⟩
    cases hblock'
    exact Expr.length_of_gives (fun name block hb => length_of_lookup_bind hb) hblock

/-- The part of a chunk is as long as the chunk. -/
theorem length_valuesOrZeros {values : Option Block}
    (h : (r.nextChunk frames).Gives g (values, r') g') :
    (valuesOrZeros (frames, values)).length = frames := by
  cases values with
  | none => exact List.length_replicate
  | some block => exact (of_nextChunk_gives h).2 block rfl

/-- **Chunk after chunk** of some lengths gives parts of these lengths. -/
theorem lengths_of_nextChunks_gives {lengths : List Nat} {parts : List (Nat × Option Block)}
    (h : (r.nextChunks lengths).Gives g (parts, r') g') :
    (parts.flatMap valuesOrZeros).length = total lengths := by
  induction lengths generalizing r g g' parts with
  | nil =>
    obtain ⟨heq, -⟩ := h.of_pure
    cases heq
    rfl
  | cons frames rest ih =>
    obtain ⟨⟨values, r₁⟩, g₁, hfirst, hrest⟩ := h.of_bind
    obtain ⟨⟨later, r₂⟩, g₂, hlater, hpure⟩ := hrest.of_bind
    obtain ⟨heq, -⟩ := hpure.of_pure
    cases heq
    rw [List.flatMap_cons, List.length_append, length_valuesOrZeros hfirst, ih hlater, total]

/-! ## Presenting values -/

/-- **An answer as the samples of a buffer**: silence if there is none, and otherwise the values
on every channel, with silence behind the last whole frame. -/
def presented (length channels : Nat) : Option Block → List Float32
  | none => List.replicate length 0
  | some values =>
    interleaved channels values ++ List.replicate (length - length / channels * channels) 0

/-- Chunks without a tree have zeros for their values. -/
theorem flatMap_valuesOrZeros_eq_zeros {parts : List (Nat × Option Block)}
    (h : parts.any (fun part => part.2.isSome) = false) :
    parts.flatMap valuesOrZeros =
      List.replicate (parts.flatMap valuesOrZeros).length 0 := by
  refine List.eq_replicate_of_mem fun v hv => ?_
  obtain ⟨⟨frames, values⟩, hpart, hv⟩ := List.mem_flatMap.mp hv
  cases values with
  | none => exact List.eq_of_mem_replicate hv
  | some values => exact absurd rfl (List.any_eq_false.mp h _ hpart)

/-- **What the chunks of a request sound like** is their answer, presented. -/
theorem samples_eq_presented {parts : List (Nat × Option Block)}
    (h : (parts.flatMap valuesOrZeros).length = length / channels) :
    parts.flatMap (chunkSamples channels) ++
        List.replicate (length - length / channels * channels) 0 =
      presented length channels (answer parts) := by
  rw [flatMap_chunkSamples]
  unfold answer
  split
  case isTrue => rfl
  case isFalse hnone =>
    rw [flatMap_valuesOrZeros_eq_zeros (Bool.eq_false_iff.mpr hnone), h, interleaved,
      List.flatMap_replicate, toSample_zero, List.flatten_replicate_replicate,
      List.replicate_append_replicate,
      Nat.add_sub_of_le (Nat.div_mul_le_self length channels)]
    rfl

/-- **A buffer with room for a frame plays the values of its frames.** -/
theorem render_eq (r : Renderer) (hchannels : 0 < channels) (hlength : channels ≤ length) :
    r.render length channels = (do
      let (values, r') ← r.nextBlock (length / channels)
      pure (presented length channels values, r')) := by
  have hframes : length / channels ≠ 0 := Nat.ne_of_gt (Nat.div_pos hlength hchannels)
  rw [nextBlock_eq, if_neg hframes, bind_assoc]
  unfold render
  rw [if_neg (Nat.ne_of_gt hchannels)]
  refine Evaluation.bind_congr_of_gives ?_
  rintro g ⟨parts, r'⟩ g' h
  rw [pure_bind]
  have hparts := lengths_of_nextChunks_gives h
  rw [total_chunks r.maxBlock_pos] at hparts
  show pure _ = pure _
  rw [samples_eq_presented hparts]

/-! ## Collecting values -/

/-- **Values collected chunk after chunk**, behind those that there are, until no sample is left.
It is kept in mind whether any chunk had a tree. -/
def collect (r : Renderer) (values : Block) (played : Bool) (remaining : Nat) :
    Evaluation (Option Block × Renderer) :=
  if remaining = 0 then pure (if played then some values else none, r)
  else do
    let (more, r') ← r.nextChunk (min remaining r.maxBlock)
    r'.collect (values ++ valuesOrZeros (min remaining r.maxBlock, more)) (played || more.isSome)
      (remaining - min remaining r.maxBlock)
termination_by remaining
decreasing_by
  have hmax := r.maxBlock_pos
  omega

/-- The values of a request: those of one chunk if they fit into it, and otherwise collected. -/
def collectBlock (r : Renderer) (frames : Nat) : Evaluation (Option Block × Renderer) :=
  if frames ≤ r.maxBlock then r.nextChunk frames else r.collect [] false frames

/-! ## Filling a buffer -/

/-- **A buffer in pieces** of `size` places, where the last piece may be shorter. -/
def pieces (size : Nat) (buffer : List Float32) : List (List Float32) :=
  if _h : size = 0 ∨ buffer = [] then []
  else buffer.take size :: pieces size (buffer.drop size)
termination_by buffer.length
decreasing_by
  have := List.length_pos_of_ne_nil (not_or.mp _h).2
  rw [List.length_drop]
  omega

/-- **Values written over a piece**, each on every channel of a frame, as long as there are
values and whole frames. -/
def overwrite (channels : Nat) (piece : List Float32) : Block → List Float32
  | [] => piece
  | v :: values =>
    if piece.length < channels then piece
    else List.replicate channels (toSample v) ++ overwrite channels (piece.drop channels) values

/-- **Pieces filled one after the other**, each by a chunk of its whole frames, up to the first
that has none. -/
def fillPieces (r : Renderer) (channels : Nat) :
    List (List Float32) → Evaluation (List Float32 × Renderer)
  | [] => pure ([], r)
  | piece :: rest =>
    if piece.length / channels = 0 then pure ((piece :: rest).flatten, r)
    else do
      let (values, r) ← r.nextChunk (piece.length / channels)
      let (later, r) ← r.fillPieces channels rest
      pure (overwrite channels piece (values.getD []) ++ later, r)

/-- **A buffer filled in place.** It is silenced first. -/
def fill (r : Renderer) (buffer : List Float32) (channels : Nat) :
    Evaluation (List Float32 × Renderer) :=
  let silent := buffer.map fun _ => 0
  if channels = 0 then pure (silent, r)
  else r.fillPieces channels (pieces (r.maxBlock * channels) silent)

/-! ## The loops cut at the same places -/

/-- **Collecting answers a request** from the chunks that it is divided into. -/
theorem collect_eq (r : Renderer) (values : Block) (played : Bool) (remaining : Nat) :
    r.collect values played remaining = (do
      let (parts, r') ← r.nextChunks (chunks r.maxBlock remaining)
      pure (if played || parts.any (fun part => part.2.isSome) then
        some (values ++ parts.flatMap valuesOrZeros) else none, r')) := by
  induction remaining using Nat.strongRecOn generalizing r values played with
  | ind remaining ih =>
    rw [collect]
    obtain rfl | hpos := Nat.eq_zero_or_pos remaining
    · simp [chunks, nextChunks]
    · rw [if_neg (Nat.ne_of_gt hpos), chunks_eq_cons r.maxBlock_pos hpos, nextChunks, bind_assoc]
      refine Evaluation.bind_congr_of_gives ?_
      rintro g ⟨more, r'⟩ g' h
      have hmax : r'.maxBlock = r.maxBlock := by rw [(of_nextChunk_gives h).1]; rfl
      have hlt : remaining - min remaining r.maxBlock < remaining := by
        have := r.maxBlock_pos
        omega
      simp only [ih _ hlt, hmax, bind_assoc, pure_bind, List.flatMap_cons, List.any_cons,
        Bool.or_assoc, List.append_assoc]

/-- One chunk answers for itself. -/
theorem answer_singleton (frames : Nat) (values : Option Block) :
    answer [(frames, values)] = values := by
  cases values with
  | none => rfl
  | some block =>
    show some (block ++ []) = some block
    rw [List.append_nil]

/-- A request that fits into a chunk is that chunk. -/
theorem lengths_of_le {maxBlock : Nat} (hmax : 0 < maxBlock) (h : frames ≤ maxBlock) :
    (if frames = 0 then [0] else chunks maxBlock frames) = [frames] := by
  split
  case isTrue hzero => rw [hzero]
  case isFalse hne =>
    rw [chunks_eq_cons hmax (Nat.pos_of_ne_zero hne), Nat.min_eq_left h, Nat.sub_self]
    simp [chunks]

/-- **The loop gives the values that the request is answered with.** -/
theorem collectBlock_eq (r : Renderer) (frames : Nat) :
    r.collectBlock frames = r.nextBlock frames := by
  rw [nextBlock_eq, collectBlock]
  split
  case isTrue h =>
    rw [lengths_of_le r.maxBlock_pos h]
    simp only [nextChunks, bind_assoc, pure_bind, answer_singleton]
    exact (bind_pure _).symm
  case isFalse h =>
    have hframes : frames ≠ 0 := by omega
    rw [collect_eq, if_neg hframes]
    rfl

/-- Pieces put together again are the buffer. -/
theorem flatten_pieces {size : Nat} (hsize : 0 < size) (buffer : List Float32) :
    (pieces size buffer).flatten = buffer := by
  induction buffer using pieces.induct size with
  | case1 buffer h =>
    rw [pieces, dif_pos h, h.resolve_left (Nat.ne_of_gt hsize)]
    rfl
  | case2 buffer h ih => rw [pieces, dif_neg h, List.flatten_cons, ih, List.take_append_drop]

/-- **A silent piece with room for some values** has them on every channel, and is silent behind
them. -/
theorem overwrite_silent (values : Block) (rest : Nat) :
    overwrite channels (List.replicate (values.length * channels + rest) 0) values =
      interleaved channels values ++ List.replicate rest 0 := by
  induction values with
  | nil =>
    rw [List.length_nil, Nat.zero_mul, Nat.zero_add]
    rfl
  | cons v values ih =>
    have hroom : (v :: values).length * channels + rest =
        channels + (values.length * channels + rest) := by
      rw [List.length_cons, Nat.succ_mul]
      omega
    rw [overwrite, hroom, List.length_replicate, if_neg (by omega), List.drop_replicate,
      Nat.add_sub_cancel_left, ih, interleaved_cons, List.append_assoc]

/-- The first piece of a silent buffer, and the pieces of the rest. -/
theorem pieces_silent {size : Nat} (hsize : 0 < size) (hlength : 0 < length) :
    pieces size (List.replicate length 0) =
      List.replicate (min size length) 0 :: pieces size (List.replicate (length - size) 0) := by
  have hne : ¬ (size = 0 ∨ List.replicate length (0 : Float32) = []) := by
    rw [List.replicate_eq_nil_iff]
    omega
  rw [pieces, dif_neg hne, List.take_replicate, List.drop_replicate]

/-- A buffer without room for a frame is left as it is. -/
theorem fillPieces_of_lt (r : Renderer) {size : Nat} (hsize : 0 < size) (h : length < channels) :
    r.fillPieces channels (pieces size (List.replicate length 0)) =
      pure (List.replicate length 0, r) := by
  obtain rfl | hlength := Nat.eq_zero_or_pos length
  · rw [List.replicate_zero, pieces, dif_pos (Or.inr rfl)]
    rfl
  · have hflatten := flatten_pieces hsize (List.replicate length 0)
    rw [pieces_silent hsize hlength] at hflatten ⊢
    have hpiece : min size length / channels = 0 := Nat.div_eq_of_lt (by omega)
    rw [fillPieces, List.length_replicate, if_pos hpiece, hflatten]

/-- The samples of a chunk written over its piece. -/
theorem overwrite_nextChunk {values : Option Block}
    (h : (r.nextChunk frames).Gives g (values, r') g') (rest : Nat) :
    overwrite channels (List.replicate (frames * channels + rest) 0) (values.getD []) =
      chunkSamples channels (frames, values) ++ List.replicate rest 0 := by
  cases values with
  | none =>
    show List.replicate (frames * channels + rest) 0 = _
    rw [← List.replicate_append_replicate]
    rfl
  | some block =>
    rw [← (of_nextChunk_gives h).2 block rfl]
    exact overwrite_silent block rest

/-- A buffer with room for one full piece and more has the samples of a chunk of the greatest
length first. -/
theorem fillPieces_of_full (r : Renderer) {maxBlock : Nat} (hmax : 0 < maxBlock)
    (hchannels : 0 < channels) (hfull : maxBlock * channels ≤ length) :
    r.fillPieces channels (pieces (maxBlock * channels) (List.replicate length 0)) = (do
      let (values, r') ← r.nextChunk maxBlock
      let (later, r'') ← r'.fillPieces channels
        (pieces (maxBlock * channels) (List.replicate (length - maxBlock * channels) 0))
      pure (chunkSamples channels (maxBlock, values) ++ later, r'')) := by
  have hsize : 0 < maxBlock * channels := Nat.mul_pos hmax hchannels
  rw [pieces_silent hsize (Nat.lt_of_lt_of_le hsize hfull), fillPieces, List.length_replicate,
    Nat.min_eq_left hfull, Nat.mul_div_cancel maxBlock hchannels, if_neg (Nat.ne_of_gt hmax)]
  refine Evaluation.bind_congr_of_gives ?_
  rintro g ⟨values, r'⟩ g' h
  have hover : overwrite channels (List.replicate (maxBlock * channels) 0) (values.getD []) =
      chunkSamples channels (maxBlock, values) := by
    rw [← Nat.add_zero (maxBlock * channels), overwrite_nextChunk h, List.replicate_zero,
      List.append_nil]
  simp only [hover]

/-- A buffer with room for less than that, but for a frame, has the samples of one chunk, and a
frame that is not whole stays silent. -/
theorem fillPieces_of_last (r : Renderer) {maxBlock : Nat} (hchannels : 0 < channels)
    (hle : channels ≤ length) (hlast : length < maxBlock * channels) :
    r.fillPieces channels (pieces (maxBlock * channels) (List.replicate length 0)) = (do
      let (values, r') ← r.nextChunk (length / channels)
      pure (chunkSamples channels (length / channels, values) ++
        List.replicate (length - length / channels * channels) 0, r')) := by
  have hnone :
      pieces (maxBlock * channels) (List.replicate (length - maxBlock * channels) 0) = [] := by
    rw [Nat.sub_eq_zero_of_le (Nat.le_of_lt hlast), List.replicate_zero, pieces,
      dif_pos (Or.inr rfl)]
  rw [pieces_silent (Nat.zero_lt_of_lt hlast) (Nat.lt_of_lt_of_le hchannels hle), fillPieces,
    List.length_replicate, Nat.min_eq_right (Nat.le_of_lt hlast),
    if_neg (Nat.ne_of_gt (Nat.div_pos hle hchannels)), hnone]
  refine Evaluation.bind_congr_of_gives ?_
  rintro g ⟨values, r'⟩ g' h
  have hover : overwrite channels (List.replicate length 0) (values.getD []) =
      chunkSamples channels (length / channels, values) ++
        List.replicate (length - length / channels * channels) 0 := by
    rw [← overwrite_nextChunk h, Nat.add_sub_of_le (Nat.div_mul_le_self length channels)]
  simp only [hover, fillPieces, pure_bind, List.append_nil]

/-- **Filling a silent buffer piece by piece** plays the chunks that its whole frames are divided
into. -/
theorem fillPieces_silent (r : Renderer) {maxBlock : Nat} (hmax : 0 < maxBlock)
    (hchannels : 0 < channels) (length : Nat) :
    r.fillPieces channels (pieces (maxBlock * channels) (List.replicate length 0)) = (do
      let (parts, r') ← r.nextChunks (chunks maxBlock (length / channels))
      pure (parts.flatMap (chunkSamples channels) ++
        List.replicate (length - length / channels * channels) 0, r')) := by
  have hsize : 0 < maxBlock * channels := Nat.mul_pos hmax hchannels
  induction length using Nat.strongRecOn generalizing r with
  | ind length ih =>
    obtain hlt | hle := Nat.lt_or_ge length channels
    · rw [fillPieces_of_lt r hsize hlt, Nat.div_eq_of_lt hlt]
      simp [chunks, nextChunks]
    have hframes : 0 < length / channels := Nat.div_pos hle hchannels
    obtain hlast | hfull := Nat.lt_or_ge length (maxBlock * channels)
    · have hmin : min (length / channels) maxBlock = length / channels :=
        Nat.min_eq_left (Nat.le_of_lt ((Nat.div_lt_iff_lt_mul hchannels).mpr hlast))
      rw [fillPieces_of_last r hchannels hle hlast, chunks_eq_cons hmax hframes, hmin, Nat.sub_self]
      simp [chunks, nextChunks]
    · have hwhole : maxBlock ≤ length / channels := (Nat.le_div_iff_mul_le hchannels).mpr hfull
      have hdiv : (length - maxBlock * channels) / channels = length / channels - maxBlock := by
        rw [Nat.mul_comm, Nat.sub_mul_div]
      have hsilent : length - maxBlock * channels - (length / channels - maxBlock) * channels =
          length - length / channels * channels := by
        have := Nat.mul_le_mul_right channels hwhole
        rw [Nat.sub_mul]
        omega
      rw [fillPieces_of_full r hmax hchannels hfull, chunks_eq_cons hmax hframes,
        Nat.min_eq_right hwhole]
      simp only [ih (length - maxBlock * channels) (by omega), hdiv, hsilent, nextChunks,
        bind_assoc, pure_bind, List.flatMap_cons, List.append_assoc]

/-- **The loop fills a buffer with the samples rendered**, whatever was in it. -/
theorem fill_eq (r : Renderer) (buffer : List Float32) (channels : Nat) :
    r.fill buffer channels = r.render buffer.length channels := by
  unfold fill render
  rw [List.map_const']
  obtain rfl | hchannels := Nat.eq_zero_or_pos channels
  · simp [chunks, nextChunks]
  · rw [if_neg (Nat.ne_of_gt hchannels), if_neg (Nat.ne_of_gt hchannels)]
    exact r.fillPieces_silent r.maxBlock_pos hchannels buffer.length

/-! ## The samples of a buffer are the values of a request -/

/-- **A request is answered with as many values as samples were asked for**, if with any. -/
theorem length_of_nextBlock_gives {block : Block}
    (h : (r.nextBlock frames).Gives g (some block, r') g') : block.length = frames := by
  obtain ⟨first, rest, htotal, heq⟩ := r.exists_nextBlock_eq frames
  rw [heq] at h
  obtain ⟨⟨parts, r₁⟩, g₁, hparts, hpure⟩ := h.of_bind
  have hanswer : answer parts = some block := congrArg Prod.fst hpure.of_pure.1.symm
  unfold answer at hanswer
  split at hanswer
  · cases hanswer
    rw [lengths_of_nextChunks_gives hparts, htotal]
  · cases hanswer

/-- **Samples that present an answer** in a buffer of some length: one value for each whole frame,
which is heard on each of its channels, silence if there are no values, and silence behind the
last whole frame. -/
structure Presents (length channels : Nat) (values : Option Block) (samples : List Float32) :
    Prop where
  length_samples : samples.length = length
  length_values : ∀ block, values = some block → block.length = length / channels
  sample_eq : ∀ block, values = some block → ∀ k < length / channels, ∀ j < channels,
    samples[k * channels + j]? = block[k]?.map toSample
  silent_of_none : values = none → ∀ i < length, samples[i]? = some 0
  silent_behind : ∀ i, length / channels * channels ≤ i → i < length → samples[i]? = some 0

/-- An answer as the samples of a buffer presents it. -/
theorem presents_presented {values : Option Block}
    (h : ∀ block, values = some block → block.length = length / channels) :
    Presents length channels values (presented length channels values) := by
  have hwhole : length / channels * channels ≤ length := Nat.div_mul_le_self length channels
  cases values with
  | none =>
    have hsilent : ∀ i < length, (presented length channels none)[i]? = some 0 :=
      fun i hi => List.getElem?_replicate_of_lt hi
    exact {
      length_samples := List.length_replicate
      length_values := h
      sample_eq := fun block hblock => nomatch hblock
      silent_of_none := fun _ => hsilent
      silent_behind := fun i _ hi => hsilent i hi }
  | some block =>
    have hlength : (interleaved channels block).length = length / channels * channels := by
      rw [length_interleaved, h block rfl]
    refine {
      length_samples := ?_
      length_values := h
      sample_eq := ?_
      silent_of_none := fun hnone => nomatch hnone
      silent_behind := fun i hi hlt => ?_ }
    · rw [presented, List.length_append, hlength, List.length_replicate]
      omega
    · rintro _ ⟨⟩ k hk j hj
      have hlt : k * channels + j < length / channels * channels := by
        have := Nat.mul_le_mul_right channels (Nat.succ_le_of_lt hk)
        rw [Nat.succ_mul] at this
        omega
      rw [presented, List.getElem?_append_left (hlength ▸ hlt), getElem?_interleaved hj]
    · rw [presented, List.getElem?_append_right (hlength ▸ hi), hlength]
      exact List.getElem?_replicate_of_lt (by omega)

/-- **Buffers and requests agree.** Into a buffer with room for a frame a renderer plays what it
answers when it is asked for as many samples as there are whole frames, as one computation: it
has the same draws and the same failure, it leaves the same renderer, and the samples present the
answer. A buffer without room for a frame, or for no channels, is silent, and the renderer stays
as it is. Whatever a buffer held before, filling it piece by piece gives these samples, and
collecting values chunk by chunk gives these answers. -/
theorem render_agrees (r : Renderer) (length channels : Nat) :
    (0 < channels → channels ≤ length →
      r.render length channels = (do
        let (values, r') ← r.nextBlock (length / channels)
        pure (presented length channels values, r')) ∧
      ∀ g values r' g', (r.nextBlock (length / channels)).Gives g (values, r') g' →
        Presents length channels values (presented length channels values)) ∧
    (channels = 0 ∨ length < channels →
      r.render length channels = pure (List.replicate length 0, r)) ∧
    (∀ buffer, buffer.length = length → r.fill buffer channels = r.render length channels) ∧
    ∀ frames, r.collectBlock frames = r.nextBlock frames := by
  refine ⟨fun hchannels hlength => ⟨r.render_eq hchannels hlength, ?_⟩, fun hsilent => ?_, ?_,
    r.collectBlock_eq⟩
  · intro g values r' g' hgives
    refine presents_presented fun block hblock => ?_
    exact length_of_nextBlock_gives (hblock ▸ hgives)
  · have hframes : (if channels = 0 then 0 else length / channels) = 0 := by
      split
      · rfl
      · exact Nat.div_eq_of_lt (hsilent.resolve_left ‹_›)
    unfold render
    rw [hframes]
    simp [chunks, nextChunks]
  · rintro buffer rfl
    exact r.fill_eq buffer channels

/-- Eleven places for three channels are three frames, in chunks of two and one, and two places
more. Two places are none. -/
theorem render_agrees_eleven :
    let tree : Expr := .binary .add (.var "x") (.var "t")
    let names := NameSet.ofList ["t", "x"]
    let r := (new {} names 2).withTree tree
    let g := Random.ofSeed 0
    (∃ values r' samples, (r.nextBlock 3).Gives g (some values, r') g ∧
      (r.fill (List.replicate 11 7) 3).Gives g (samples, r') g ∧
      Presents 11 3 (some values) samples) ∧
    r.fill [7, 7] 3 = pure ([0, 0], r) := by
  intro tree names r g
  have hnames : ∀ name ∈ tree.occurrences, name ∈ names := by decide
  have hplays : r.Plays names tree := plays_new {} 2 ⟨trivial, trivial⟩ hnames
  have he : tree.Evaluable := ⟨trivial, trivial⟩
  obtain ⟨r', hgives, -⟩ := hplays.nextBlock_gives he 3 g
  obtain ⟨hplayed, -, hfill, -⟩ := r.render_agrees 11 3
  obtain ⟨hrender, hpresents⟩ := hplayed (by decide) (by decide)
  obtain ⟨-, hsilent, hfill', -⟩ := r.render_agrees 2 3
  refine ⟨⟨_, r', _, hgives, ?_, hpresents g _ r' g hgives⟩, ?_⟩
  · rw [hfill _ List.length_replicate, hrender]
    exact hgives.bind (Evaluation.gives_pure _ _)
  · rw [hfill' [7, 7] rfl]
    exact hsilent (Or.inr (by decide))

end Renderer

end FormulaSynth
