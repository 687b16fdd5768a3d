import FormulaSynth.Proofs.Compiler.Reparsing
import FormulaSynth.Proofs.Playback.Ledger
import FormulaSynth.Proofs.Playback.Rendering
/-!
# Runs of a renderer

What happens to a renderer while it plays is a list of actions: it is asked for samples, its
clock and its macros are set, it is given other trees, and at the other end of its channel trees
are published. Between two chunks of a request something may be published as well; such a request
is a run too, of chunks with the publications between them.

Nothing in an evaluation keeps it from drawing random values, and nothing in a renderer does.
What does is that the trees were folded: then no call of `rand` is left in any of them, every
call that is left has the argument it reads, and every variable is one that the renderer binds
(`Expr.Still`). If a renderer has no other trees, and an action brings it no others, then it has
no others afterwards, and the action has drawn nothing (`Renderer.Still.perform_drawsNothing`).
So a run has the same outputs whatever the random source is, and leaves the source as it was
(`Renderer.folded_draws_nothing`).
-/

namespace FormulaSynth

/-! ## Computations that draw nothing -/

namespace Evaluation

variable {α β : Type} {m : Evaluation α} {q : α → Prop} {q' : β → Prop} {a : α}

/-- **A computation that draws nothing**: from every source it gives the same value, for which
`q` holds, and it leaves every source as it was. -/
def DrawsNothing (m : Evaluation α) (q : α → Prop) : Prop :=
  ∃ a, q a ∧ ∀ g, m.Gives g a g

theorem drawsNothing_pure (h : q a) : DrawsNothing (pure a) q :=
  ⟨a, h, fun g => gives_pure a g⟩

/-- Of two computations, one after the other, the second may rely on what the first comes to. -/
theorem DrawsNothing.bind {k : α → Evaluation β} (hm : DrawsNothing m q)
    (hk : ∀ a, q a → DrawsNothing (k a) q') : DrawsNothing (m >>= k) q' := by
  obtain ⟨a, ha, hgives⟩ := hm
  obtain ⟨b, hb, hgives'⟩ := hk a ha
  exact ⟨b, hb, fun g => (hgives g).bind (hgives' g)⟩

theorem DrawsNothing.map (hm : DrawsNothing m q) {f : α → β} (hf : ∀ a, q a → q' (f a)) :
    DrawsNothing (f <$> m) q' := by
  rw [← bind_pure_comp]
  exact hm.bind fun a ha => drawsNothing_pure (hf a ha)

end Evaluation

open Evaluation (DrawsNothing drawsNothing_pure)

/-! ## Trees that draw nothing -/

/-- **A tree that can be played over some variables without a draw.** -/
structure Expr.Still (names : NameSet) (e : Expr) : Prop where
  randFree : e.RandFree
  evaluable : e.Evaluable
  variables_mem : ∀ name ∈ e.occurrences, name ∈ names

/-- With its variables bound it evaluates, and draws nothing. -/
theorem Expr.Still.eval_drawsNothing {names : NameSet} {e : Expr} (h : e.Still names)
    {b : Bindings} {n : Nat} (hb : ∀ name ∈ names, b.Covers n name) :
    (e.eval b n).DrawsNothing fun block => block.length = n :=
  ⟨e.values b n, Expr.length_values b n e, fun g =>
    h.randFree.gives_of_evaluable h.evaluable (fun name hn => hb name (h.variables_mem name hn)) g⟩

/-- **A tree that some text compiles to with folding**, from some source and in a vocabulary that
has none but the given variables. Which functions it has makes no difference. -/
def Compiler.Folded (names : NameSet) (e : Expr) : Prop :=
  ∃ (v : Vocabulary) (text : String) (g g' : Random),
    (∀ name ∈ v.variableNames, name ∈ names) ∧ (parse ⟨v, true⟩ text).run g = (.ok e, g')

/-- **Folding leaves nothing to draw.** It has replaced every call of `rand`, as that has no
arguments and so all its arguments are constant; the counts of arguments were checked before. -/
theorem Compiler.Folded.still {names : NameSet} {e : Expr} (h : Compiler.Folded names e) :
    e.Still names := by
  obtain ⟨v, text, g, g', hnames, hrun⟩ := h
  obtain ⟨t, hread, hbuild⟩ := run_parse_eq_ok_iff.mp hrun
  obtain ⟨t', e₁, -, htree, hfinish⟩ := exists_finish_gives_of_run_parse hrun
  have hwithin : e.Within v := within_of_run_build hbuild
  obtain ⟨e', hfold, hfolds⟩ := Expr.fold_gives (Phrase.within_of_tree htree).saturated g
  obtain ⟨rfl, -⟩ := hfold.unique hfinish
  exact {
    randFree := hfolds.randFree
    evaluable := hwithin.saturated.supplied.evaluable
    variables_mem := fun name hn => hnames name (hwithin.variables_mem name hn) }

/-! ## The trees of a source -/

namespace TreeSource

/-- **The trees that are played from a source**, now or later. -/
def trees : TreeSource → List Expr
  | fixed tree => tree.toList
  | subscribed channel => channel.current.toList ++ channel.pending

/-- The newest tree is one of them. -/
theorem mem_trees_of_newest? {s : TreeSource} {tree : Expr} (h : s.newest? = some tree) :
    tree ∈ s.trees := by
  cases s with
  | fixed tree' => exact Option.mem_toList.mpr h
  | subscribed channel =>
    obtain hlast | ⟨-, hcurrent⟩ := Option.or_eq_some_iff.mp h
    · exact List.mem_append_right _ (List.mem_of_getLast? hlast)
    · exact List.mem_append_left _ (Option.mem_toList.mpr hcurrent)

/-- A refresh brings no tree that was not there. -/
theorem trees_refresh_subset (s : TreeSource) : s.refresh.trees ⊆ s.trees := by
  cases s with
  | fixed tree => exact List.Subset.refl _
  | subscribed channel =>
    intro tree htree
    have hmem : tree ∈ channel.refresh.current.toList ++ channel.refresh.pending := htree
    rw [Channel.pending_refresh, List.append_nil, Channel.current_refresh] at hmem
    exact mem_trees_of_newest? (s := subscribed channel) (Option.mem_toList.mp hmem)

end TreeSource

/-- What is sent is the only tree that can be new in a channel. -/
theorem Channel.trees_send_subset (c : Channel Expr) (tree : Expr) :
    (TreeSource.subscribed (c.send tree).2).trees ⊆ tree :: (TreeSource.subscribed c).trees := by
  cases hrefusal : c.refusal? with
  | none =>
    rw [send_of_no_refusal hrefusal]
    show c.current.toList ++ (c.pending ++ [tree]) ⊆ tree :: (c.current.toList ++ c.pending)
    rw [← List.append_assoc]
    exact (List.perm_append_singleton tree _).subset
  | some refusal =>
    rw [send_of_refusal hrefusal]
    exact List.subset_cons_self _ _

namespace Renderer

/-! ## Actions -/

/-- **What may happen to a renderer.** It is asked for a chunk, for values or for the samples of a
buffer. Its clock goes back to the beginning; its clock or its macros are set. It is given a tree
or a channel. At the other end of its channel a tree is published, what was sent back is freed, or
the publisher goes. -/
inductive Action where
  | nextChunk (frames : Nat)
  | nextBlock (frames : Nat)
  | render (length channels : Nat)
  | reset
  | setClock (clock : Clock)
  | setMacros (macros : Macros)
  | withTree (tree : Expr)
  | withChannel (channel : Channel Expr)
  | publish (tree : Expr)
  | reclaim
  | dropPublisher

/-- The trees that an action brings. -/
def Action.trees : Action → List Expr
  | withTree tree => [tree]
  | withChannel channel => (TreeSource.subscribed channel).trees
  | publish tree => [tree]
  | _ => []

/-- **What comes of an action**: values or samples, what was not published, or how many trees were
freed. -/
inductive Output where
  | values (block : Option Block)
  | samples (buffer : List Float32)
  | published (returned : Option (Returned Expr))
  | reclaimed (count : Nat)
  | nothing

/-- The renderer with something done to its channel, if it has one. -/
def onChannel (r : Renderer) (f : Channel Expr → Channel Expr) : Renderer :=
  match r.source with
  | .fixed _ => r
  | .subscribed channel => { r with source := .subscribed (f channel) }

/-- **An action done**: what comes of it, and the renderer after it. -/
def perform (r : Renderer) : Action → Evaluation (Output × Renderer)
  | .nextChunk frames => Prod.map .values id <$> r.nextChunk frames
  | .nextBlock frames => Prod.map .values id <$> r.nextBlock frames
  | .render length channels => Prod.map .samples id <$> r.render length channels
  | .reset => pure (.nothing, r.reset)
  | .setClock clock => pure (.nothing, { r with clock := clock })
  | .setMacros macros => pure (.nothing, { r with macros := macros })
  | .withTree tree => pure (.nothing, r.withTree tree)
  | .withChannel channel => pure (.nothing, r.withChannel channel)
  | .publish tree => pure (.published (r.channel?.bind fun channel => (channel.send tree).1),
      r.onChannel fun channel => (channel.send tree).2)
  | .reclaim => pure (.reclaimed (r.channel?.elim 0 fun channel => channel.retired.length),
      r.onChannel .reclaim)
  | .dropPublisher => pure (.nothing, r.onChannel .dropPublisher)

/-- **A run of actions**: what comes of each, and the renderer after them. -/
def run (r : Renderer) : List Action → Evaluation (List Output × Renderer)
  | [] => pure ([], r)
  | a :: rest => do
    let (output, r) ← r.perform a
    let (later, r) ← r.run rest
    pure (output :: later, r)

/-! ## Renderers that draw nothing -/

/-- **A renderer that draws nothing**: it has bound the names of a set, and all it plays, now or
later, are trees over these that draw nothing. -/
structure Still (names : NameSet) (r : Renderer) : Prop where
  bound : r.bindings.map Prod.fst = names.toList
  trees : ∀ tree ∈ r.source.trees, tree.Still names

namespace Still

variable {names : NameSet} {r : Renderer}

/-- Where its trees come from may change. -/
theorem withSource (h : r.Still names) {source : TreeSource}
    (hsource : ∀ tree ∈ source.trees, tree.Still names) :
    Still names { r with source := source } :=
  ⟨h.bound, hsource⟩

/-- Something done to the channel may bring trees of the same kind. -/
theorem onChannel (h : r.Still names) {f : Channel Expr → Channel Expr} {more : List Expr}
    (hmore : ∀ tree ∈ more, tree.Still names)
    (hf : ∀ channel, (TreeSource.subscribed (f channel)).trees ⊆
      more ++ (TreeSource.subscribed channel).trees) : (r.onChannel f).Still names := by
  unfold Renderer.onChannel
  split
  · exact h
  · next channel hchannel =>
    refine h.withSource fun tree htree => ?_
    obtain hmem | hmem := List.mem_append.mp (hf channel htree)
    · exact hmore tree hmem
    · exact h.trees tree (hchannel ▸ hmem)

/-- A chunk changes what the names are bound to, and takes over a tree. -/
theorem afterChunk (h : r.Still names) (frames : Nat) : (r.afterChunk frames).Still names where
  bound := (r.map_fst_bind frames).trans h.bound
  trees tree htree := h.trees tree (r.source.trees_refresh_subset htree)

/-- **A chunk draws nothing.** -/
theorem nextChunk_drawsNothing (h : r.Still names) (frames : Nat) :
    (r.nextChunk frames).DrawsNothing fun result => result.2.Still names := by
  cases hnewest : r.source.newest? with
  | none => exact ⟨_, h.afterChunk frames, nextChunk_gives_none hnewest frames⟩
  | some tree =>
    have htree := h.trees tree (TreeSource.mem_trees_of_newest? hnewest)
    have hplays : r.Plays names tree := ⟨h.bound, hnewest, htree.randFree, htree.variables_mem⟩
    exact ⟨_, h.afterChunk frames, hplays.nextChunk_gives htree.evaluable frames⟩

theorem nextChunks_drawsNothing (h : r.Still names) (lengths : List Nat) :
    (r.nextChunks lengths).DrawsNothing fun result => result.2.Still names := by
  induction lengths generalizing r with
  | nil => exact drawsNothing_pure h
  | cons frames rest ih =>
    exact (h.nextChunk_drawsNothing frames).bind fun _ hfirst =>
      (ih hfirst).bind fun _ hrest => drawsNothing_pure hrest

theorem nextBlock_drawsNothing (h : r.Still names) (frames : Nat) :
    (r.nextBlock frames).DrawsNothing fun result => result.2.Still names := by
  obtain ⟨first, rest, -, heq⟩ := r.exists_nextBlock_eq frames
  rw [heq]
  exact (h.nextChunks_drawsNothing (first :: rest)).bind fun _ hafter => drawsNothing_pure hafter

theorem render_drawsNothing (h : r.Still names) (length channels : Nat) :
    (r.render length channels).DrawsNothing fun result => result.2.Still names :=
  (h.nextChunks_drawsNothing _).bind fun _ hafter => drawsNothing_pure hafter

/-- **No action draws anything**, if the trees it brings draw nothing. -/
theorem perform_drawsNothing (h : r.Still names) {a : Action}
    (ha : ∀ tree ∈ a.trees, tree.Still names) :
    (r.perform a).DrawsNothing fun result => result.2.Still names := by
  cases a with
  | nextChunk frames => exact (h.nextChunk_drawsNothing frames).map fun _ hafter => hafter
  | nextBlock frames => exact (h.nextBlock_drawsNothing frames).map fun _ hafter => hafter
  | render length channels =>
    exact (h.render_drawsNothing length channels).map fun _ hafter => hafter
  | reset | setClock | setMacros => exact drawsNothing_pure ⟨h.bound, h.trees⟩
  | withTree tree => exact drawsNothing_pure (h.withSource ha)
  | withChannel channel => exact drawsNothing_pure (h.withSource ha)
  | publish tree =>
    exact drawsNothing_pure (h.onChannel ha fun channel => channel.trees_send_subset tree)
  | reclaim | dropPublisher =>
    exact drawsNothing_pure (h.onChannel ha fun channel => List.Subset.refl _)

/-- **No run draws anything**, if the trees it brings draw nothing. -/
theorem run_drawsNothing (h : r.Still names) {actions : List Action}
    (hactions : ∀ a ∈ actions, ∀ tree ∈ a.trees, tree.Still names) :
    (r.run actions).DrawsNothing fun result => result.2.Still names := by
  induction actions generalizing r with
  | nil => exact drawsNothing_pure h
  | cons a rest ih =>
    obtain ⟨ha, hrest⟩ := List.forall_mem_cons.mp hactions
    exact (h.perform_drawsNothing ha).bind fun _ hfirst =>
      (ih hfirst hrest).bind fun _ hafter => drawsNothing_pure hafter

end Still

/-! ## Folded formulas -/

/-- **Folded formulas play without a draw.** A tree that a text compiles to with folding has no
call of `rand`. With the variables of the vocabulary bound for `n` samples it evaluates, from
every source to the same `n` values, and leaves the source as it was. The same goes for whole runs
of a renderer that has bound at least these variables: if all the trees it has and all that it is
given on the way are folded formulas, then what comes of the run and the renderer after it are the
same from every source, and the source is left as it was. -/
theorem folded_draws_nothing :
    (∀ (v : Vocabulary) (text : String) (g g' : Random) (e : Expr),
      (Compiler.parse ⟨v, true⟩ text).run g = (.ok e, g') →
      e.RandFree ∧ ∀ (b : Bindings) (n : Nat), (∀ name ∈ v.variableNames, b.Covers n name) →
        ∃ block : Block, block.length = n ∧ ∀ g₁, (e.eval b n).Gives g₁ block g₁) ∧
    ∀ (names : NameSet) (r : Renderer) (actions : List Action),
      r.bindings.map Prod.fst = names.toList →
      (∀ tree ∈ r.source.trees, Compiler.Folded names tree) →
      (∀ a ∈ actions, ∀ tree ∈ a.trees, Compiler.Folded names tree) →
      ∃ outputs r', ∀ g, (r.run actions).Gives g (outputs, r') g := by
  refine ⟨fun v text g g' e hrun => ?_, fun names r actions hbound htrees hactions => ?_⟩
  · have hfolded : Compiler.Folded v.variableNames e := ⟨v, text, g, g', fun _ hn => hn, hrun⟩
    exact ⟨hfolded.still.randFree, fun b n hb => hfolded.still.eval_drawsNothing hb⟩
  · have hstill : r.Still names := ⟨hbound, fun tree htree => (htrees tree htree).still⟩
    obtain ⟨⟨outputs, r'⟩, -, hgives⟩ :=
      hstill.run_drawsNothing fun a ha tree htree => (hactions a ha tree htree).still
    exact ⟨outputs, r', hgives⟩

/-- The value that folding has drawn for `rand()` is heard in the first request; what is published
later is heard in the second. -/
theorem folded_draws_nothing_rand :
    let names : NameSet := ⟨["t"]⟩
    let v : Vocabulary := { variableNames := names }
    let g := Random.ofSeed 0
    let first : Expr := .binary .subtract (.const (g.upcoming 0)) (.var "t")
    let second : Expr := .binary .and (.var "t") (.const 5)
    let r := (new {} names 2).withTree first
    let actions : List Action :=
      [.nextBlock 3, .withChannel (.new 1), .reset, .publish second, .render 9 2]
    (Compiler.parse ⟨v, true⟩ "rand() - t").run g = (.ok first, g.skip 1) ∧ first.RandFree ∧
      (∃ block : Block, block.length = 2 ∧ ∀ g₁, (first.eval [("t", [3, 4])] 2).Gives g₁ block g₁) ∧
      (Compiler.parse ⟨v, true⟩ "t & (2 + 3)").run g = (.ok second, g) ∧
      ∃ outputs r', ∀ g, (r.run actions).Gives g (outputs, r') g := by
  intro names v g first second r actions
  have hphrase : Phrase.ofText "rand() - t".toList =
      .ok (.binary .subtract ⟨1, 8⟩ (.call ⟨1, 1⟩ "rand" []) (.var ⟨1, 10⟩ "t")) := rfl
  have hfold : (Expr.binary .subtract (.call "rand" .rand []) (.var "t")).fold.Gives
      g first (g.skip 1) :=
    (Expr.foldCall_rand_gives "rand" g).bind (Evaluation.gives_pure first (g.skip 1))
  have hfirst : (Compiler.parse ⟨v, true⟩ "rand() - t").run g = (.ok first, g.skip 1) :=
    Compiler.run_parse_folded hphrase rfl hfold
  have hsecond : (Compiler.parse ⟨v, true⟩ "t & (2 + 3)").run g = (.ok second, g) := rfl
  have hcovers : ∀ name ∈ v.variableNames, Bindings.Covers [("t", [3, 4])] 2 name := by
    intro name hname
    obtain rfl := List.mem_singleton.mp hname
    exact ⟨[3, 4], rfl, rfl⟩
  obtain ⟨htree, hrun⟩ := folded_draws_nothing
  obtain ⟨hfree, heval⟩ := htree v _ g _ first hfirst
  refine ⟨hfirst, hfree, heval _ 2 hcovers, hsecond,
    hrun names r actions (map_fst_new {} names 2) ?_ ?_⟩
  · intro tree hmem
    obtain rfl := List.mem_singleton.mp hmem
    exact ⟨v, _, g, _, fun _ hn => hn, hfirst⟩
  · intro a ha tree hmem
    simp only [actions, List.mem_cons, List.not_mem_nil, or_false] at ha
    obtain rfl | rfl | rfl | rfl | rfl := ha
    case inr.inr.inr.inl =>
      obtain rfl := List.mem_singleton.mp hmem
      exact ⟨v, _, g, _, fun _ hn => hn, hsecond⟩
    all_goals exact absurd hmem List.not_mem_nil

end Renderer

end FormulaSynth
