import FormulaSynth.Compiler
import FormulaSynth.Proofs.Expr.Folding
import FormulaSynth.Proofs.Formula.Phrase
/-!
# Building a tree from a phrase

Building runs through a phrase with the random source at hand, carries faults
along as values, and folds on the way if it has to. What it comes to is simple.
`Phrase.tree` reads the tree off a phrase without source and folding, and stops
at the first fault. Building fails exactly when that fails, with the same fault,
and otherwise builds the tree that `Phrase.tree` reads, folded afterwards from
the same source: `Compiler.build_spec`.
-/

namespace FormulaSynth

/-! ## Computations that may fail -/

section Bind

variable {ε α β : Type} {x : Except ε α} {f : α → Except ε β}

/-- A computation followed by another ends well if both do. -/
theorem bind_eq_ok_iff {b : β} : (x >>= f) = .ok b ↔ ∃ a, x = .ok a ∧ f a = .ok b := by
  cases x with
  | error e => simp [bind, Except.bind]
  | ok a => simp [bind, Except.bind]

/-- It fails if the first does, or the second after the first. -/
theorem bind_eq_error_iff {e : ε} :
    (x >>= f) = .error e ↔ x = .error e ∨ ∃ a, x = .ok a ∧ f a = .error e := by
  cases x with
  | error e' => simp [bind, Except.bind]
  | ok a => simp [bind, Except.bind]

end Bind

/-! ## The tree of a phrase -/

namespace Phrase

mutual

/-- **The tree a phrase stands for**, or its first fault. A number has to fit a
word, a variable and a function have to be in the vocabulary, and a call has to
have a number of arguments its function accepts. Groups leave no trace. -/
def tree (v : Vocabulary) : Phrase → Except Fault Expr
  | number p text =>
    if -0x80000000 ≤ Decimal.toInt text ∧ Decimal.toInt text < 0x80000000 then
      .ok (.const (Int32.ofInt (Decimal.toInt text)))
    else
      .error ⟨.numberOutOfRange (String.ofList text), p⟩
  | var p name =>
    if name ∈ v.variableNames then .ok (.var name) else .error ⟨.unknownVariable name, p⟩
  | group _ inner => inner.tree v
  | binary op _ l r => do
    let l ← l.tree v
    let r ← r.tree v
    .ok (.binary op l r)
  | call p name args =>
    match v.function? name with
    | none => .error ⟨.unknownFunction name, p⟩
    | some f => do
      let args ← trees v args
      if f.arity.accepts args.length then .ok (.call name f args)
      else .error ⟨.argumentCount name args.length, p⟩

/-- The trees of several phrases, or the first fault among them. -/
def trees (v : Vocabulary) : List Phrase → Except Fault (List Expr)
  | [] => .ok []
  | t :: rest => do
    let e ← t.tree v
    let es ← trees v rest
    .ok (e :: es)

end

section Inversion

variable {v : Vocabulary} {p : Position} {name : String} {op : Operation} {l r t : Phrase}
  {args : List Phrase} {e : Expr} {es : List Expr}

theorem tree_binary_eq_ok :
    (binary op p l r).tree v = .ok e ↔
      ∃ l', l.tree v = .ok l' ∧ ∃ r', r.tree v = .ok r' ∧ .binary op l' r' = e := by
  simp [tree, bind_eq_ok_iff]

theorem tree_call_eq_ok :
    (call p name args).tree v = .ok e ↔
      ∃ f, v.function? name = some f ∧ ∃ es, trees v args = .ok es ∧
        f.arity.accepts es.length = true ∧ .call name f es = e := by
  rw [tree]
  cases v.function? name with
  | none => simp
  | some f =>
    simp only [bind_eq_ok_iff, Option.some.injEq, exists_eq_left']
    refine exists_congr fun es => and_congr_right fun _ => ?_
    split <;> simp_all

theorem trees_cons_eq_ok :
    trees v (t :: args) = .ok es ↔
      ∃ e, t.tree v = .ok e ∧ ∃ rest, trees v args = .ok rest ∧ e :: rest = es := by
  simp [trees, bind_eq_ok_iff]

/-- A tree read off arguments was read off one of them. -/
theorem exists_of_mem_trees (h : trees v args = .ok es) (he : e ∈ es) :
    ∃ t ∈ args, t.tree v = .ok e := by
  induction args generalizing es with
  | nil =>
    cases h
    exact absurd he List.not_mem_nil
  | cons t args ih =>
    obtain ⟨e', he', rest, hrest, rfl⟩ := trees_cons_eq_ok.mp h
    rcases List.mem_cons.mp he with rfl | he
    · exact ⟨t, List.mem_cons_self, he'⟩
    · obtain ⟨u, hu, hue⟩ := ih hrest he
      exact ⟨u, List.mem_cons_of_mem _ hu, hue⟩

/-- A fault of arguments is a fault of one of them. -/
theorem exists_of_trees_eq_error {fault : Fault} (h : trees v args = .error fault) :
    ∃ t ∈ args, t.tree v = .error fault := by
  induction args with
  | nil => cases h
  | cons t args ih =>
    rw [trees] at h
    obtain h | ⟨e, -, h⟩ := bind_eq_error_iff.mp h
    · exact ⟨t, List.mem_cons_self, h⟩
    · obtain h | ⟨es, -, h⟩ := bind_eq_error_iff.mp h
      · obtain ⟨u, hu, hue⟩ := ih h
        exact ⟨u, List.mem_cons_of_mem _ hu, hue⟩
      · cases h

end Inversion

/-- **A tree read off a phrase is within the vocabulary.** -/
theorem within_of_tree {v : Vocabulary} {t : Phrase} {e : Expr} (h : t.tree v = .ok e) :
    e.Within v := by
  induction t using inductionOn generalizing e with
  | number p text =>
    rw [tree] at h
    split at h
    · cases h
      exact ⟨fun _ h => absurd h List.not_mem_nil, trivial⟩
    · cases h
  | var p name =>
    rw [tree] at h
    split at h
    · next hmem =>
      cases h
      exact ⟨fun _ h => List.mem_singleton.mp h ▸ hmem, trivial⟩
    · cases h
  | group p inner ih => exact ih h
  | binary op p l r hl hr =>
    obtain ⟨l', hl', r', hr', rfl⟩ := tree_binary_eq_ok.mp h
    obtain ⟨hlv, hlc⟩ := hl hl'
    obtain ⟨hrv, hrc⟩ := hr hr'
    exact ⟨fun name hn => (List.mem_append.mp hn).elim (hlv name) (hrv name), hlc, hrc⟩
  | call p name args ih =>
    obtain ⟨f, hf, es, hes, harity, rfl⟩ := tree_call_eq_ok.mp h
    have hargs : ∀ e ∈ es, e.Within v := by
      intro e he
      obtain ⟨t, ht, hte⟩ := exists_of_mem_trees hes he
      exact ih t ht hte
    refine ⟨fun name hn => ?_,
      Expr.allCalls_call.mpr ⟨⟨hf, harity⟩, fun e he => (hargs e he).calls⟩⟩
    obtain ⟨e, he, hne⟩ := Expr.mem_occurrencesAll.mp hn
    exact (hargs e he).variables_mem name hne

end Phrase

/-! ## Building -/

namespace Compiler

/-- A tree as a compiler leaves it: folded, if it folds. -/
def finish (c : Compiler) (e : Expr) : Evaluation Expr :=
  if c.folding then e.fold else pure e

/-- Trees as a compiler leaves them. -/
def finishAll (c : Compiler) (es : List Expr) : Evaluation (List Expr) :=
  if c.folding then Expr.foldAll es else pure es

section Finish

variable {c : Compiler} {g g' g'' : Random} {l l' r r' e e' : Expr} {es es' : List Expr}

/-- A constant or a variable is left as it is. -/
theorem finish_leaf_gives (h : e.fold.Gives g e g) : (c.finish e).Gives g e g := by
  unfold finish
  split
  · exact h
  · exact Evaluation.gives_pure e g

theorem finish_binary_gives (hl : (c.finish l).Gives g l' g') (hr : (c.finish r).Gives g' r' g'')
    (op : Operation) : (c.finish (.binary op l r)).Gives g (c.binary op l' r') g'' := by
  unfold finish binary at *
  split
  case isTrue h =>
    rw [if_pos h] at hl hr
    exact hl.bind (hr.bind (Evaluation.gives_pure _ _))
  case isFalse h =>
    rw [if_neg h] at hl hr
    cases hl
    cases hr
    rfl

theorem finishAll_cons_gives (he : (c.finish e).Gives g e' g')
    (hes : (c.finishAll es).Gives g' es' g'') :
    (c.finishAll (e :: es)).Gives g (e' :: es') g'' := by
  unfold finish finishAll at *
  split
  case isTrue h =>
    rw [if_pos h] at he hes
    exact he.bind (hes.bind (Evaluation.gives_pure _ _))
  case isFalse h =>
    rw [if_neg h] at he hes
    cases he
    cases hes
    rfl

theorem finish_call_gives {name : String} {f : Builtin} (hes : (c.finishAll es).Gives g es' g')
    (he : (c.call name f es').Gives g' e' g'') :
    (c.finish (.call name f es)).Gives g e' g'' := by
  unfold finish finishAll call at *
  split
  case isTrue h =>
    rw [if_pos h] at hes he
    exact hes.bind he
  case isFalse h =>
    rw [if_neg h] at hes he
    cases hes
    exact he

/-- A call with an accepted number of arguments can always be built. -/
theorem exists_call_gives (name : String) {f : Builtin}
    (h : f.arity.accepts es.length = true) (g : Random) :
    ∃ e g', (c.call name f es).Gives g e g' := by
  unfold call
  split
  case isTrue =>
    by_cases hf : f = .rand
    · subst hf
      have hlen : 0 = es.length := by simpa [Builtin.arity] using h
      cases List.eq_nil_of_length_eq_zero hlen.symm
      exact ⟨_, _, Expr.foldCall_rand_gives name g⟩
    · obtain ⟨e, he, -⟩ := Expr.foldCall_gives name hf (Builtin.reads_le_of_accepts h)
      exact ⟨e, g, he g⟩
  case isFalse => exact ⟨_, g, Evaluation.gives_pure _ g⟩

end Finish

/-! What building does, as runs from a source. -/

section Run

variable {c : Compiler} {g g' g'' : Random} {p : Position} {name : String} {f : Builtin}
  {op : Operation} {l r t : Phrase} {args : List Phrase} {fault : Fault} {e : Expr}
  {es es' : List Expr}

/-- Both operands are built, the left one first. -/
theorem run_build_binary {x y : Except Fault Expr} (hl : (c.build l).run g = (x, g'))
    (hr : (c.build r).run g' = (y, g'')) :
    (c.build (.binary op p l r)).run g = (do return c.binary op (← x) (← y), g'') := by
  rw [build, StateT.run_bind, hl]
  show StateT.run (c.build r >>= _) g' = _
  rw [StateT.run_bind, hr]
  rfl

theorem run_buildAll_cons_of_error (h : (c.build t).run g = (.error fault, g')) :
    (c.buildAll (t :: args)).run g = (.error fault, g') := by
  rw [buildAll, StateT.run_bind, h]
  rfl

theorem run_buildAll_cons_of_ok {x : Except Fault (List Expr)}
    (h : (c.build t).run g = (.ok e, g')) (hargs : (c.buildAll args).run g' = (x, g'')) :
    (c.buildAll (t :: args)).run g = (do return e :: (← x), g'') := by
  rw [buildAll, StateT.run_bind, h]
  show StateT.run (c.buildAll args >>= _) g' = _
  rw [StateT.run_bind, hargs]
  cases x <;> rfl

theorem run_build_call_of_error (hf : c.vocabulary.function? name = some f)
    (hargs : (c.buildAll args).run g = (.error fault, g')) :
    (c.build (.call p name args)).run g = (.error fault, g') := by
  simp only [build, hf]
  rw [StateT.run_bind, hargs]
  rfl

theorem run_build_call_of_count (hf : c.vocabulary.function? name = some f)
    (hargs : (c.buildAll args).run g = (.ok es, g'))
    (hcount : ¬ f.arity.accepts es.length = true) :
    (c.build (.call p name args)).run g = (.error ⟨.argumentCount name es.length, p⟩, g') := by
  simp only [build, hf]
  rw [StateT.run_bind, hargs]
  show StateT.run (if _ then _ else _) g' = _
  rw [if_neg hcount]
  rfl

theorem run_build_call_of_ok (hf : c.vocabulary.function? name = some f)
    (hargs : (c.buildAll args).run g = (.ok es, g'))
    (hcount : f.arity.accepts es.length = true) (hcall : (c.call name f es).Gives g' e g'') :
    (c.build (.call p name args)).run g = (.ok e, g'') := by
  simp only [build, hf]
  rw [StateT.run_bind, hargs]
  show StateT.run (if _ then _ else _) g' = _
  rw [if_pos hcount, callOrFault, StateT.run_bind]
  unfold Evaluation.Gives at hcall
  rw [hcall]
  rfl

end Run

/-- **What building comes to**: the fault that reading the tree stops at, or that
tree as the compiler leaves it. -/
def BuildsTo (c : Compiler) (t : Phrase) : Prop :=
  ∀ g, (∃ fault g', t.tree c.vocabulary = .error fault ∧
      (c.build t).run g = (.error fault, g')) ∨
    (∃ e e' g', t.tree c.vocabulary = .ok e ∧ (c.finish e).Gives g e' g' ∧
      (c.build t).run g = (.ok e', g'))

/-- Arguments that each come to what they should do so together. -/
theorem buildAll_spec {c : Compiler} {args : List Phrase}
    (h : ∀ a ∈ args, c.BuildsTo a) (g : Random) :
    (∃ fault g', Phrase.trees c.vocabulary args = .error fault ∧
      (c.buildAll args).run g = (.error fault, g')) ∨
    (∃ es es' g', Phrase.trees c.vocabulary args = .ok es ∧ es'.length = es.length ∧
      (c.finishAll es).Gives g es' g' ∧ (c.buildAll args).run g = (.ok es', g')) := by
  induction args generalizing g with
  | nil =>
    -- nothing to build draws nothing, folding or not
    refine Or.inr ⟨[], [], g, rfl, rfl, ?_, rfl⟩
    unfold finishAll
    split <;> rfl
  | cons t args ih =>
    rw [Phrase.trees]
    obtain ⟨fault, g', ht, hrun⟩ | ⟨e, e', g', ht, hgives, hrun⟩ := h t List.mem_cons_self g
    · rw [ht]
      exact Or.inl ⟨fault, g', rfl, run_buildAll_cons_of_error hrun⟩
    · rw [ht]
      obtain ⟨fault, g'', hargs, hruns⟩ | ⟨es, es', g'', hargs, hlen, hgives', hruns⟩ :=
        ih (fun a ha => h a (List.mem_cons_of_mem _ ha)) g'
      · rw [hargs]
        exact Or.inl ⟨fault, g'', rfl, run_buildAll_cons_of_ok hrun hruns⟩
      · rw [hargs]
        exact Or.inr ⟨e :: es, e' :: es', g'', rfl, by rw [List.length_cons, hlen]; rfl,
          finishAll_cons_gives hgives hgives', run_buildAll_cons_of_ok hrun hruns⟩

/-- **Building a phrase**: it fails exactly when reading its tree does, with the
same fault, and otherwise builds that tree as the compiler leaves it. -/
theorem build_spec (c : Compiler) (t : Phrase) : c.BuildsTo t := by
  induction t using Phrase.inductionOn with
  | number p text =>
    intro g
    rw [Phrase.tree, build, number]
    split
    · exact Or.inr ⟨_, _, g, rfl, finish_leaf_gives (Evaluation.gives_pure _ g), rfl⟩
    · exact Or.inl ⟨_, g, rfl, rfl⟩
  | var p name =>
    intro g
    rw [Phrase.tree, build, variable_]
    simp only [NameSet.contains_iff]
    split
    · exact Or.inr ⟨_, _, g, rfl, finish_leaf_gives (Evaluation.gives_pure _ g), rfl⟩
    · exact Or.inl ⟨_, g, rfl, rfl⟩
  | group p inner ih => exact ih
  | binary op p l r hl hr =>
    intro g
    rw [Phrase.tree]
    obtain ⟨fault, g', hlt, hlrun⟩ | ⟨l₁, l₂, g', hlt, hlgives, hlrun⟩ := hl g
    · -- the right operand is built as well, whatever comes of it
      rw [hlt]
      exact Or.inl ⟨fault, _, rfl, run_build_binary hlrun rfl⟩
    · obtain ⟨fault, g'', hrt, hrrun⟩ | ⟨r₁, r₂, g'', hrt, hrgives, hrrun⟩ := hr g'
      · rw [hlt, hrt]
        exact Or.inl ⟨fault, g'', rfl, run_build_binary hlrun hrrun⟩
      · rw [hlt, hrt]
        exact Or.inr ⟨_, _, g'', rfl, finish_binary_gives hlgives hrgives op,
          run_build_binary hlrun hrrun⟩
  | call p name args ih =>
    intro g
    rw [Phrase.tree]
    cases hf : c.vocabulary.function? name with
    | none =>
      refine Or.inl ⟨_, g, rfl, ?_⟩
      simp only [build, hf]
      rfl
    | some f =>
      obtain ⟨fault, g', hargs, hrun⟩ | ⟨es, es', g', hargs, hlen, hgives, hrun⟩ :=
        buildAll_spec ih g
      · simp only [hargs]
        exact Or.inl ⟨fault, g', rfl, run_build_call_of_error hf hrun⟩
      · simp only [hargs]
        by_cases hcount : f.arity.accepts es.length = true
        · obtain ⟨e, g'', hcall⟩ := c.exists_call_gives name (hlen ▸ hcount) g'
          exact Or.inr ⟨.call name f es, e, g'', if_pos hcount,
            finish_call_gives hgives hcall, run_build_call_of_ok hf hrun (hlen ▸ hcount) hcall⟩
        · refine Or.inl ⟨⟨.argumentCount name es.length, p⟩, g', if_neg hcount, ?_⟩
          rw [← hlen]
          exact run_build_call_of_count hf hrun (hlen ▸ hcount)

end Compiler

end FormulaSynth
