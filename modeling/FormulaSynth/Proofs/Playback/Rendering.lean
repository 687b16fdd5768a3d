import FormulaSynth.Playback.Renderer
import FormulaSynth.Proofs.Expr.Meaning
/-!
# Rendering sample by sample

What a renderer should play is easily said: sample `k` from its clock on is the value
of its tree where the variables have their values of that sample, `Renderer.pointwise`.
What it does is less direct. The request is divided into chunks; for every chunk it
looks for a tree, overwrites the blocks its variables were bound to by those of the
chunk, which may be of another length, evaluates the tree once, and moves the clock on.

Both come to the same (`Renderer.renders_pointwise`), so neither the greatest length of
a chunk nor the division of a time into requests can be heard. The proof follows the
renderer. What a variable is bound to does not depend on what it was bound to before
(`Renderer.refill_resize`); so a chunk plays its part (`Renderer.Plays.nextChunk_gives`),
and it leaves the renderer where the next one has to start (`Renderer.After`).
-/

namespace FormulaSynth

/-! ## Clocks -/

theorem Clock.advance_zero (c : Clock) : c.advance (UInt64.ofNat 0) = c := by
  show { c with elapsed := c.elapsed + 0 } = c
  rw [UInt64.add_zero]

theorem Clock.advance_advance (c : Clock) (m n : Nat) :
    (c.advance (UInt64.ofNat m)).advance (UInt64.ofNat n) = c.advance (UInt64.ofNat (m + n)) := by
  show { c with elapsed := c.elapsed + UInt64.ofNat m + UInt64.ofNat n } = _
  rw [UInt64.add_assoc, ← UInt64.ofNat_add]
  rfl

/-- **The clock counts the samples**, as far as 64 bits go. -/
theorem Clock.toNat_elapsed_advance (c : Clock) (frames : Nat) :
    (c.advance (UInt64.ofNat frames)).elapsed.toNat
      = (c.elapsed.toNat + frames) % UInt64.size := by
  show (c.elapsed + UInt64.ofNat frames).toNat = _
  rw [UInt64.toNat_add, UInt64.toNat_ofNat', Nat.add_mod_mod]

/-! ## The newest tree -/

/-- **The newest tree a source has**: the one that was sent last, or the one at hand. -/
def TreeSource.newest? : TreeSource → Option Expr
  | fixed tree => tree
  | subscribed channel => channel.pending.getLast?.or channel.current

/-- A refresh has the newest tree played. -/
theorem TreeSource.tree?_refresh (s : TreeSource) : s.refresh.tree? = s.newest? := by
  cases s with
  | fixed tree => rfl
  | subscribed channel => exact channel.current_refresh

/-- It remains the newest. -/
theorem TreeSource.newest?_refresh (s : TreeSource) : s.refresh.newest? = s.newest? := by
  cases s with
  | fixed tree => rfl
  | subscribed channel =>
    show channel.refresh.pending.getLast?.or channel.refresh.current = _
    rw [channel.pending_refresh, channel.current_refresh]
    rfl

namespace Renderer

/-! ## What the variables stand for -/

/-- **The values of the variables at sample `n`.** -/
def environment (clock : Clock) (macros : Macros) (n : UInt64) (name : String) : Int32 :=
  match name with
  | "t" => clock.sampleCounter n
  | "T" => clock.tempoCounter n
  | "w" => macros.w
  | "x" => macros.x
  | "y" => macros.y
  | "z" => macros.z
  | _ => 0

theorem environment_eq (clock : Clock) (macros : Macros) (n : UInt64) (name : String) :
    environment clock macros n name =
      if name = sampleCounter then clock.sampleCounter n
      else if name = tempoCounter then clock.tempoCounter n
      else (macros.get? name).getD 0 := by
  unfold environment Macros.get? sampleCounter tempoCounter
  split <;> simp_all

theorem length_resize (block : Block) (n : Nat) : (resize block n).length = n := by
  unfold resize
  rw [List.length_append, List.length_take, List.length_replicate]
  omega

/-- What is written over a block by place does not depend on the block. -/
theorem mapIdx_eq_map_range (f : Nat → Int32) (block : Block) :
    (block.mapIdx fun i _ => f i) = (List.range block.length).map f := by
  refine List.ext_getElem (by simp) fun i hi _ => ?_
  simp

/-- **A variable is bound to its values at the next samples**, whatever it was bound to
before. -/
theorem refill_resize (r : Renderer) (name : String) (block : Block) (frames : Nat) :
    r.refill name (resize block frames) = (List.range frames).map fun k =>
      environment r.clock r.macros (r.clock.elapsed + UInt64.ofNat k) name := by
  simp only [environment_eq]
  unfold refill
  split
  · rw [mapIdx_eq_map_range, length_resize]
  · split
    · rw [mapIdx_eq_map_range, length_resize]
    · rw [List.map_const', List.map_const', length_resize, List.length_range]

/-- The bound names stay bound. -/
theorem map_fst_bind (r : Renderer) (frames : Nat) :
    (r.bind frames).bindings.map Prod.fst = r.bindings.map Prod.fst := by
  show (r.bindings.map _).map Prod.fst = _
  rw [List.map_map]
  rfl

/-- A name bound among others is bound to its own values. -/
theorem lookup_map_of_mem {b : Bindings} {name : String} (h : name ∈ b.map Prod.fst)
    (values : String → Block) :
    (b.map fun (name, _) => (name, values name)).lookup name = some (values name) := by
  induction b with
  | nil => cases h
  | cons entry b ih =>
    rw [List.map_cons, List.lookup_cons]
    by_cases hname : name = entry.1
    · subst hname
      rw [beq_self_eq_true]
    · rw [beq_false_of_ne hname]
      exact ih ((List.mem_cons.mp h).resolve_left hname)

/-- What a name is bound to for the next samples. -/
theorem lookup_bind {r : Renderer} {name : String} (h : name ∈ r.bindings.map Prod.fst)
    (frames : Nat) : (r.bind frames).bindings.lookup name = some ((List.range frames).map fun k =>
      environment r.clock r.macros (r.clock.elapsed + UInt64.ofNat k) name) := by
  show (r.bindings.map _).lookup name = _
  simp only [refill_resize]
  exact lookup_map_of_mem h fun name => (List.range frames).map fun k =>
    environment r.clock r.macros (r.clock.elapsed + UInt64.ofNat k) name

/-- **The values of a tree at the samples from the clock on**, each by itself. -/
def pointwise (clock : Clock) (macros : Macros) (tree : Expr) (frames : Nat) : Block :=
  (List.range frames).map fun k =>
    tree.value (environment clock macros (clock.elapsed + UInt64.ofNat k))

theorem length_pointwise (clock : Clock) (macros : Macros) (tree : Expr) (frames : Nat) :
    (pointwise clock macros tree frames).length = frames := by
  rw [pointwise, List.length_map, List.length_range]

/-- The samples after the first `m` are those from a clock `m` samples later on. -/
theorem pointwise_add (clock : Clock) (macros : Macros) (tree : Expr) (m n : Nat) :
    pointwise clock macros tree (m + n) = pointwise clock macros tree m ++
      pointwise (clock.advance (UInt64.ofNat m)) macros tree n := by
  unfold pointwise
  rw [List.range_add, List.map_append, List.map_map]
  refine congrArg _ (List.map_congr_left fun k _ => ?_)
  show tree.value (environment clock macros (clock.elapsed + UInt64.ofNat (m + k)))
    = tree.value (environment clock macros (clock.elapsed + UInt64.ofNat m + UInt64.ofNat k))
  rw [UInt64.ofNat_add, UInt64.add_assoc]

/-- **With the variables bound for the next samples**, a tree over them has the values it
has at each sample by itself. -/
theorem values_bind {r : Renderer} {tree : Expr}
    (h : ∀ name ∈ tree.occurrences, name ∈ r.bindings.map Prod.fst) (frames : Nat) :
    tree.values (r.bind frames).bindings frames = pointwise r.clock r.macros tree frames := by
  refine List.map_congr_left fun k hk => Expr.value_congr fun name hname => ?_
  rw [Bindings.valuesAt, lookup_bind (h name hname)]
  simp [List.mem_range.mp hk]

/-! ## What a renderer plays -/

/-- **A renderer that plays a tree**: it has bound the names of a set, and its newest tree
is one over these, without randomness. -/
structure Plays (names : NameSet) (tree : Expr) (r : Renderer) : Prop where
  bound : r.bindings.map Prod.fst = names.toList
  newest : r.source.newest? = some tree
  randFree : tree.RandFree
  variables_mem : ∀ name ∈ tree.occurrences, name ∈ names

/-- A new renderer has bound its names. -/
theorem map_fst_new (clock : Clock) (names : NameSet) (maxBlock : Nat) :
    (new clock names maxBlock).bindings.map Prod.fst = names.toList := by
  show (names.toList.map _).map Prod.fst = names.toList
  rw [List.map_map]
  exact List.map_id _

/-- A new renderer plays the tree it is given. -/
theorem plays_new (clock : Clock) {names : NameSet} (maxBlock : Nat) {tree : Expr}
    (hrand : tree.RandFree) (hnames : ∀ name ∈ tree.occurrences, name ∈ names) :
    ((new clock names maxBlock).withTree tree).Plays names tree where
  bound := map_fst_new clock names maxBlock
  newest := rfl
  randFree := hrand
  variables_mem := hnames

theorem Plays.mem_bindings {names : NameSet} {tree : Expr} {r : Renderer}
    (h : r.Plays names tree) : ∀ name ∈ tree.occurrences, name ∈ r.bindings.map Prod.fst := by
  rw [h.bound]
  exact h.variables_mem

/-- **A renderer some samples later**: its clock has moved on, and it has the same names
bound and the same tree to play. -/
structure After (r : Renderer) (frames : Nat) (r' : Renderer) : Prop where
  clock_eq : r'.clock = r.clock.advance (UInt64.ofNat frames)
  macros_eq : r'.macros = r.macros
  maxBlock_eq : r'.maxBlock = r.maxBlock
  names_eq : r'.bindings.map Prod.fst = r.bindings.map Prod.fst
  newest_eq : r'.source.newest? = r.source.newest?

theorem After.refl (r : Renderer) : r.After 0 r :=
  ⟨r.clock.advance_zero.symm, rfl, rfl, rfl, rfl⟩

theorem After.trans {r r' r'' : Renderer} {m n : Nat} (h : r.After m r') (h' : r'.After n r'') :
    r.After (m + n) r'' where
  clock_eq := by rw [h'.clock_eq, h.clock_eq, Clock.advance_advance]
  macros_eq := h'.macros_eq.trans h.macros_eq
  maxBlock_eq := h'.maxBlock_eq.trans h.maxBlock_eq
  names_eq := h'.names_eq.trans h.names_eq
  newest_eq := h'.newest_eq.trans h.newest_eq

theorem Plays.after {names : NameSet} {tree : Expr} {r r' : Renderer} {frames : Nat}
    (h : r.Plays names tree) (h' : r.After frames r') : r'.Plays names tree :=
  ⟨h'.names_eq.trans h.bound, h'.newest_eq.trans h.newest, h.randFree, h.variables_mem⟩

/-! ## One chunk -/

/-- The renderer after a chunk. -/
def afterChunk (r : Renderer) (frames : Nat) : Renderer :=
  { r.bind frames with
    source := r.source.refresh
    clock := r.clock.advance (UInt64.ofNat frames) }

theorem after_afterChunk (r : Renderer) (frames : Nat) : r.After frames (r.afterChunk frames) :=
  ⟨rfl, rfl, rfl, r.map_fst_bind frames, r.source.newest?_refresh⟩

/-- A chunk evaluates the newest tree, if there is one. -/
theorem nextChunk_eq (r : Renderer) (frames : Nat) : r.nextChunk frames = (do
    let values ← match r.source.newest? with
      | none => pure none
      | some tree => some <$> tree.eval (r.bind frames).bindings frames
    pure (values, r.afterChunk frames)) := by
  rw [← TreeSource.tree?_refresh]
  rfl

/-- **A chunk plays the tree sample by sample.** -/
theorem Plays.nextChunk_gives {names : NameSet} {tree : Expr} {r : Renderer}
    (h : r.Plays names tree) (he : tree.Evaluable) (frames : Nat) (g : Random) :
    (r.nextChunk frames).Gives g
      (some (pointwise r.clock r.macros tree frames), r.afterChunk frames) g := by
  have hcovers : ∀ name ∈ tree.occurrences, (r.bind frames).bindings.Covers frames name :=
    fun name hname => ⟨_, lookup_bind (h.mem_bindings name hname) frames, by simp⟩
  have heval := h.randFree.gives_of_evaluable he hcovers g
  rw [values_bind h.mem_bindings] at heval
  rw [nextChunk_eq, h.newest]
  exact (heval.map some).bind (Evaluation.gives_pure _ _)

/-- A chunk without a tree is passed over. -/
theorem nextChunk_gives_none {r : Renderer} (h : r.source.newest? = none) (frames : Nat)
    (g : Random) : (r.nextChunk frames).Gives g (none, r.afterChunk frames) g := by
  rw [nextChunk_eq, h]
  exact Evaluation.gives_pure _ _

/-- Only a tree that evaluates can be played. -/
theorem evaluable_of_nextChunk_gives {r : Renderer} {tree : Expr}
    (h : r.source.newest? = some tree) {frames : Nat} {g g' : Random}
    {result : Option Block × Renderer} (hgives : (r.nextChunk frames).Gives g result g') :
    tree.Evaluable := by
  rw [nextChunk_eq, h] at hgives
  obtain ⟨values, g₁, hvalues, -⟩ := hgives.of_bind
  obtain ⟨block, hblock, -⟩ := hvalues.of_map
  exact Expr.evaluable_of_gives hblock

/-! ## Chunk after chunk -/

/-- How many samples a list of lengths makes. -/
def total : List Nat → Nat
  | [] => 0
  | frames :: rest => frames + total rest

/-- **The chunks are cut off one after the other**, each as long as can be. -/
theorem chunks_eq_cons {maxBlock frames : Nat} (hmax : 0 < maxBlock) (h : 0 < frames) :
    chunks maxBlock frames =
      min frames maxBlock :: chunks maxBlock (frames - min frames maxBlock) := by
  obtain hlt | hle := Nat.lt_or_ge frames maxBlock
  · rw [Nat.min_eq_left (Nat.le_of_lt hlt), Nat.sub_self]
    unfold chunks
    rw [Nat.div_eq_of_lt hlt, Nat.mod_eq_of_lt hlt, if_neg (Nat.ne_of_gt h), Nat.zero_div,
      Nat.zero_mod, if_pos rfl]
    rfl
  · rw [Nat.min_eq_right hle]
    unfold chunks
    rw [Nat.div_eq_sub_div hmax hle, Nat.mod_eq_sub_mod hle, List.replicate_succ]
    rfl

/-- The chunks of a request make up the request. -/
theorem total_chunks {maxBlock : Nat} (hmax : 0 < maxBlock) (frames : Nat) :
    total (chunks maxBlock frames) = frames := by
  induction frames using Nat.strongRecOn with
  | ind frames ih =>
    obtain rfl | h := Nat.eq_zero_or_pos frames
    · simp [chunks, total]
    · rw [chunks_eq_cons hmax h, total, ih _ (by omega)]
      omega

/-- **Chunk after chunk plays the tree sample by sample**, so one of them has values if there is
any chunk. -/
theorem Plays.nextChunks_gives {names : NameSet} {tree : Expr} {r : Renderer}
    (h : r.Plays names tree) (he : tree.Evaluable) (lengths : List Nat) (g : Random) :
    ∃ parts r', (r.nextChunks lengths).Gives g (parts, r') g ∧ r.After (total lengths) r' ∧
      parts.flatMap valuesOrZeros = pointwise r.clock r.macros tree (total lengths) ∧
      (lengths ≠ [] → parts.any (fun part => part.2.isSome) = true) := by
  induction lengths generalizing r with
  | nil => exact ⟨[], r, Evaluation.gives_pure _ _, After.refl r, rfl, fun h => absurd rfl h⟩
  | cons frames rest ih =>
    have hfirst := h.nextChunk_gives he frames g
    have hafter : r.After frames (r.afterChunk frames) := r.after_afterChunk frames
    obtain ⟨parts, r', hrest, hafter', hparts, -⟩ := ih (h.after hafter)
    refine ⟨_, r', hfirst.bind (hrest.bind (Evaluation.gives_pure _ _)), hafter.trans hafter',
      ?_, fun _ => rfl⟩
    rw [List.flatMap_cons, hparts, hafter.macros_eq, hafter.clock_eq, total, pointwise_add]
    rfl

/-- Without a tree all chunks are passed over. -/
theorem nextChunks_gives_none {r : Renderer} (h : r.source.newest? = none) (lengths : List Nat)
    (g : Random) :
    ∃ parts r', (r.nextChunks lengths).Gives g (parts, r') g ∧ r.After (total lengths) r' ∧
      parts.any (fun part => part.2.isSome) = false := by
  induction lengths generalizing r with
  | nil => exact ⟨[], r, Evaluation.gives_pure _ _, After.refl r, rfl⟩
  | cons frames rest ih =>
    have hfirst := nextChunk_gives_none h frames g
    have hafter : r.After frames (r.afterChunk frames) := r.after_afterChunk frames
    obtain ⟨parts, r', hrest, hafter', hparts⟩ := ih (hafter.newest_eq.trans h)
    exact ⟨_, r', hfirst.bind (hrest.bind (Evaluation.gives_pure _ _)), hafter.trans hafter',
      hparts⟩

/-! ## Requests -/

/-- What a request is answered, from what its chunks gave. -/
def answer (parts : List (Nat × Option Block)) : Option Block :=
  if parts.any fun part => part.2.isSome then some (parts.flatMap valuesOrZeros) else none

/-- A request is answered from its chunks. -/
theorem nextBlock_eq (r : Renderer) (frames : Nat) : r.nextBlock frames = (do
    let (parts, r') ← r.nextChunks (if frames = 0 then [0] else chunks r.maxBlock frames)
    pure (answer parts, r')) := by
  unfold nextBlock
  refine bind_congr fun (parts, r') => ?_
  show (if parts.any (fun part => part.2.isSome) = true then _ else _) = pure (answer parts, r')
  unfold answer
  split
  · rfl
  · rfl

/-- **A request is answered from chunks that make it up**, of which there is one at least:
even asking for no sample asks for a chunk. -/
theorem exists_nextBlock_eq (r : Renderer) (frames : Nat) :
    ∃ first rest, total (first :: rest) = frames ∧ r.nextBlock frames = (do
      let (parts, r') ← r.nextChunks (first :: rest)
      pure (answer parts, r')) := by
  have hlengths : ∃ first rest, total (first :: rest) = frames ∧
      (if frames = 0 then [0] else chunks r.maxBlock frames) = first :: rest := by
    split
    case isTrue h => exact ⟨0, [], h.symm, rfl⟩
    case isFalse h =>
      have hcons := chunks_eq_cons r.maxBlock_pos (Nat.pos_of_ne_zero h)
      exact ⟨_, _, hcons ▸ total_chunks r.maxBlock_pos frames, hcons⟩
  obtain ⟨first, rest, htotal, hlengths⟩ := hlengths
  exact ⟨first, rest, htotal, hlengths ▸ r.nextBlock_eq frames⟩

/-- **A request plays the tree sample by sample**, however it is divided. -/
theorem Plays.nextBlock_gives {names : NameSet} {tree : Expr} {r : Renderer}
    (h : r.Plays names tree) (he : tree.Evaluable) (frames : Nat) (g : Random) :
    ∃ r', (r.nextBlock frames).Gives g (some (pointwise r.clock r.macros tree frames), r') g ∧
      r.After frames r' := by
  obtain ⟨first, rest, htotal, heq⟩ := r.exists_nextBlock_eq frames
  obtain ⟨parts, r', hchunks, hafter, hparts, hany⟩ := h.nextChunks_gives he (first :: rest) g
  rw [htotal] at hafter hparts
  have hanswer : answer parts = some (pointwise r.clock r.macros tree frames) := by
    rw [answer, if_pos (hany (List.cons_ne_nil _ _)), hparts]
  rw [heq, ← hanswer]
  exact ⟨r', hchunks.bind (Evaluation.gives_pure _ _), hafter⟩

/-- Without a tree a request only moves the clock. -/
theorem nextBlock_gives_none {r : Renderer} (h : r.source.newest? = none) (frames : Nat)
    (g : Random) : ∃ r', (r.nextBlock frames).Gives g (none, r') g ∧ r.After frames r' := by
  obtain ⟨first, rest, htotal, heq⟩ := r.exists_nextBlock_eq frames
  obtain ⟨parts, r', hchunks, hafter, hany⟩ := nextChunks_gives_none h (first :: rest) g
  rw [htotal] at hafter
  have hanswer : answer parts = none := by
    rw [answer, hany]
    rfl
  rw [heq, ← hanswer]
  exact ⟨r', hchunks.bind (Evaluation.gives_pure _ _), hafter⟩

/-- A request gets no further than its first chunk. -/
theorem evaluable_of_nextBlock_gives {r : Renderer} {tree : Expr}
    (h : r.source.newest? = some tree) {frames : Nat} {g g' : Random}
    {result : Option Block × Renderer} (hgives : (r.nextBlock frames).Gives g result g') :
    tree.Evaluable := by
  obtain ⟨first, rest, -, heq⟩ := r.exists_nextBlock_eq frames
  rw [heq] at hgives
  obtain ⟨parts, g₁, hchunks, -⟩ := hgives.of_bind
  obtain ⟨part, g₂, hfirst, -⟩ := hchunks.of_bind
  exact evaluable_of_nextChunk_gives h hfirst

/-- The values of request after request. -/
def nextBlocks (r : Renderer) : List Nat → Evaluation (List (Option Block) × Renderer)
  | [] => pure ([], r)
  | frames :: rest => do
    let (values, r) ← r.nextBlock frames
    let (later, r) ← r.nextBlocks rest
    pure (values :: later, r)

/-- **Request after request plays the tree sample by sample.** -/
theorem Plays.nextBlocks_gives {names : NameSet} {tree : Expr} {r : Renderer}
    (h : r.Plays names tree) (he : tree.Evaluable) (requests : List Nat) (g : Random) :
    ∃ (blocks : List Block) (r' : Renderer),
      (r.nextBlocks requests).Gives g (blocks.map some, r') g ∧ r.After (total requests) r' ∧
      blocks.flatten = pointwise r.clock r.macros tree (total requests) := by
  induction requests generalizing r with
  | nil => exact ⟨[], r, Evaluation.gives_pure _ _, After.refl r, rfl⟩
  | cons frames rest ih =>
    obtain ⟨r', hfirst, hafter⟩ := h.nextBlock_gives he frames g
    obtain ⟨blocks, r'', hrest, hafter', hblocks⟩ := ih (h.after hafter)
    refine ⟨pointwise r.clock r.macros tree frames :: blocks, r'',
      hfirst.bind (hrest.bind (Evaluation.gives_pure _ _)), hafter.trans hafter', ?_⟩
    rw [List.flatten_cons, hblocks, hafter.macros_eq, hafter.clock_eq, total, pointwise_add]

/-! ## Rendering is pointwise -/

/-- **Rendering is pointwise.** A renderer that plays a tree answers a request with one
value for each sample, and the value for sample `k` is that of the tree where the
variables have their values `k` samples after the clock. So two renderers of the same
tree, at the same time and with the same macros, answer two divisions of a time into
requests with the same values, one after the other, whatever their greatest lengths of
a chunk are. All this goes for trees that evaluate; with another there is no answer.
Without a tree the answer is that there is none. In both cases the clock moves on by
the samples asked for, and the renderer can be asked for the samples after these. -/
theorem renders_pointwise (r : Renderer) (g : Random) :
    (∀ names tree, r.Plays names tree → tree.Evaluable →
      (∀ frames, ∃ values r', (r.nextBlock frames).Gives g (some values, r') g ∧
        values.length = frames ∧
        (∀ k < frames, values[k]? = some
          (tree.value (environment r.clock r.macros (r.clock.elapsed + UInt64.ofNat k)))) ∧
        r.After frames r') ∧
      ∀ names' (s : Renderer), s.Plays names' tree → s.clock = r.clock → s.macros = r.macros →
        ∀ requests requests', total requests = total requests' →
          ∃ (blocks blocks' : List Block) (r' s' : Renderer),
            (r.nextBlocks requests).Gives g (blocks.map some, r') g ∧
            (s.nextBlocks requests').Gives g (blocks'.map some, s') g ∧
            blocks.flatten = blocks'.flatten) ∧
    (∀ names tree, r.Plays names tree → ¬ tree.Evaluable →
      ∀ frames result g', ¬ (r.nextBlock frames).Gives g result g') ∧
    (r.source.newest? = none →
      ∀ frames, ∃ r', (r.nextBlock frames).Gives g (none, r') g ∧ r.After frames r') ∧
    ∀ frames r', r.After frames r' →
      r'.clock.elapsed.toNat = (r.clock.elapsed.toNat + frames) % UInt64.size := by
  refine ⟨fun names tree h he => ⟨fun frames => ?_, ?_⟩, ?_, fun h frames =>
    nextBlock_gives_none h frames g, fun frames r' h => ?_⟩
  · obtain ⟨r', hgives, hafter⟩ := h.nextBlock_gives he frames g
    refine ⟨_, r', hgives, length_pointwise _ _ _ _, fun k hk => ?_, hafter⟩
    rw [pointwise, List.getElem?_map, List.getElem?_range hk]
    rfl
  · intro names' s hs hclock hmacros requests requests' htotal
    obtain ⟨blocks, r', hgives, -, hblocks⟩ := h.nextBlocks_gives he requests g
    obtain ⟨blocks', s', hgives', -, hblocks'⟩ := hs.nextBlocks_gives he requests' g
    refine ⟨blocks, blocks', r', s', hgives, hgives', ?_⟩
    rw [hblocks, hblocks', hclock, hmacros, htotal]
  · intro names tree h he frames result g' hgives
    exact he (evaluable_of_nextBlock_gives h.newest hgives)
  · rw [h.clock_eq]
    exact r.clock.toNat_elapsed_advance frames

/-- Three samples of `x + t`, asked for one and two at a time of a renderer with chunks of
one sample, and all at once of one with chunks of two. -/
theorem renders_pointwise_three :
    let tree : Expr := .binary .add (.var "x") (.var "t")
    let names := NameSet.ofList ["t", "x"]
    let r := (new {} names 0).withTree tree
    let s := (new {} names 2).withTree tree
    let g := Random.ofSeed 0
    r.Plays names tree ∧ tree.Evaluable ∧
      (∃ values r', (r.nextBlock 3).Gives g (some values, r') g ∧ values.length = 3 ∧
        r'.clock.elapsed.toNat = (r.clock.elapsed.toNat + 3) % UInt64.size) ∧
      ∃ (blocks blocks' : List Block) (r' s' : Renderer),
        (r.nextBlocks [1, 2]).Gives g (blocks.map some, r') g ∧
        (s.nextBlocks [3]).Gives g (blocks'.map some, s') g ∧
        blocks.flatten = blocks'.flatten := by
  intro tree names r s g
  have hnames : ∀ name ∈ tree.occurrences, name ∈ names := by decide
  have hr : r.Plays names tree := plays_new {} 0 ⟨trivial, trivial⟩ hnames
  have hs : s.Plays names tree := plays_new {} 2 ⟨trivial, trivial⟩ hnames
  have he : tree.Evaluable := ⟨trivial, trivial⟩
  obtain ⟨hplays, -, -, helapsed⟩ := renders_pointwise r g
  obtain ⟨hone, hmany⟩ := hplays names tree hr he
  obtain ⟨values, r', hgives, hlength, -, hafter⟩ := hone 3
  exact ⟨hr, he, ⟨values, r', hgives, hlength, helapsed 3 r' hafter⟩,
    hmany names s hs rfl rfl [1, 2] [3] rfl⟩

end Renderer

end FormulaSynth
