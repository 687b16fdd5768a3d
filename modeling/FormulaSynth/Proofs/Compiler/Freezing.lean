import FormulaSynth.Proofs.Compiler.Folding
import FormulaSynth.Proofs.Expr.Draws
/-!
# Folding while a text is compiled

A compiler that folds does so as it goes: the operands of an operator are folded by the time the
operator is, in an order that the precedence of the operators makes, faults are carried along,
and a call of `rand` takes a value from the source at once. It could as well have built the tree
without folding, and folded it afterwards from the leaves up. The tree would be the same, the
fault would be the same, and so would the values that were drawn: one for each call of `rand` in
the text, in the order of the text (`Compiler.folding_afterwards`).

The tree and the fault come from `Compiler.build_spec`. What is left is to count. The calls of
`rand` in a tree are those of its phrase (`Phrase.count_callees_of_tree`), and these are those of
the tokens (`Grammar.Derives.count_callees`). Where there is a fault, something may have been
drawn before it and behind it, but for no call more than once (`Compiler.drawsAtMost_build`).
-/

namespace FormulaSynth

/-! ## Computations that draw so much at most -/

/-- **A computation draws at most so many values**, wherever it is started. -/
def Random.DrawsAtMost {α : Type} (limit : Nat) (m : StateM Random α) : Prop :=
  ∀ g, ∃ drawn ≤ limit, (m.run g).2 = g.skip drawn

namespace Random

variable {α β : Type} {m : StateM Random α} {k l : Nat}

theorem drawsAtMost_pure (a : α) (limit : Nat) : DrawsAtMost limit (pure a) :=
  fun _ => ⟨0, Nat.zero_le _, rfl⟩

/-- One computation after another draws what both draw. -/
theorem DrawsAtMost.bind {f : α → StateM Random β} (hm : DrawsAtMost k m)
    (hf : ∀ a, DrawsAtMost l (f a)) : DrawsAtMost (k + l) (m >>= f) := by
  intro g
  obtain ⟨i, hi, hfirst⟩ := hm g
  obtain ⟨j, hj, hsecond⟩ := hf (m.run g).1 (g.skip i)
  refine ⟨i + j, Nat.add_le_add hi hj, ?_⟩
  rw [StateT.run_bind, ← skip_skip, ← hsecond, ← hfirst]
  rfl

/-- What comes behind a computation may be such that it draws nothing. -/
theorem DrawsAtMost.bind_zero {f : α → StateM Random β} (hm : DrawsAtMost k m)
    (hf : ∀ a, DrawsAtMost 0 (f a)) : DrawsAtMost k (m >>= f) :=
  hm.bind hf

end Random

/-! ## The calls of `rand` in a phrase -/

/-- A vocabulary has `rand` under its own name only. -/
theorem Vocabulary.eq_rand_iff {v : Vocabulary} {name : String} {f : Builtin}
    (h : v.function? name = some f) : f = .rand ↔ name = Builtin.rand.name := by
  obtain ⟨-, rfl⟩ := mem_of_function? h
  cases f <;> decide

namespace Phrase

/-- A call is counted if it is one of `rand`, and its arguments in any case. -/
theorem count_callees_call {v : Vocabulary} {p : Position} {name : String} {f : Builtin}
    {args : List Phrase} (h : v.function? name = some f) :
    (call p name args).callees.count Builtin.rand.name =
      (if f = .rand then 1 else 0) + (calleesAll args).count Builtin.rand.name := by
  rw [callees, List.count_cons, Nat.add_comm]
  simp only [Vocabulary.eq_rand_iff h, beq_iff_eq]

/-- The calls of `rand` in arguments are those of the trees read off them, if the calls of each
argument are. -/
theorem count_calleesAll_of_trees {v : Vocabulary} {args : List Phrase} {es : List Expr}
    (h : ∀ t ∈ args, ∀ e, t.tree v = .ok e →
      t.callees.count Builtin.rand.name = e.randCalls)
    (hes : trees v args = .ok es) :
    (calleesAll args).count Builtin.rand.name = Expr.randCallsAll es := by
  induction args generalizing es with
  | nil =>
    cases hes
    rfl
  | cons t args ih =>
    obtain ⟨e, he, rest, hrest, rfl⟩ := trees_cons_eq_ok.mp hes
    obtain ⟨ht, hargs⟩ := List.forall_mem_cons.mp h
    rw [calleesAll, List.count_append, ht e he, ih hargs hrest, Expr.randCallsAll]

/-- **A tree calls `rand` as often as the phrase it was read off.** -/
theorem count_callees_of_tree {v : Vocabulary} {t : Phrase} {e : Expr} (h : t.tree v = .ok e) :
    t.callees.count Builtin.rand.name = e.randCalls := by
  induction t using inductionOn generalizing e with
  | number p text =>
    rw [tree] at h
    split at h <;> cases h
    rfl
  | var p name =>
    rw [tree] at h
    split at h <;> cases h
    rfl
  | group p inner ih => exact ih h
  | binary op p l r hl hr =>
    obtain ⟨l', hl', r', hr', rfl⟩ := tree_binary_eq_ok.mp h
    rw [callees, List.count_append, hl hl', hr hr', Expr.randCalls]
  | call p name args ih =>
    obtain ⟨f, hf, es, hes, -, rfl⟩ := tree_call_eq_ok.mp h
    rw [count_callees_call hf, count_calleesAll_of_trees (fun t ht e => ih t ht) hes,
      Expr.randCalls]

end Phrase

namespace Compiler

open FormulaSynth.Random (DrawsAtMost drawsAtMost_pure)

variable {c : Compiler} {v : Vocabulary} {text : String} {t : Phrase} {e : Expr} {g : Random}

/-! ## What building draws -/

/-- Folding a call draws a value if the call is one of `rand`. -/
theorem drawsAtMost_foldCall (name : String) (f : Builtin) (args : List Expr) :
    DrawsAtMost (if f = .rand then 1 else 0) (Expr.foldCall name f args).run := by
  by_cases hconstant : args.all Expr.isConstant = true
  · rw [Expr.foldCall, if_pos hconstant]
    by_cases hf : f = .rand
    · subst hf
      exact fun g => ⟨1, Nat.le_refl 1, rfl⟩
    · obtain ⟨w, hw⟩ := Builtin.exists_onWord? hf
      cases args with
      | nil =>
        rw [Expr.eval_call_nil hw]
        exact drawsAtMost_pure _ _
      | cons a rest =>
        obtain ⟨x, rfl⟩ :=
          Expr.isConstant_iff.mp (List.all_eq_true.mp hconstant a List.mem_cons_self)
        rw [Expr.eval_call_const hw]
        exact drawsAtMost_pure _ _
  · rw [Expr.foldCall, if_neg hconstant]
    exact drawsAtMost_pure _ _

/-- So does building one, if the compiler folds. -/
theorem drawsAtMost_callOrFault (c : Compiler) (name : String) (f : Builtin) (args : List Expr) :
    DrawsAtMost (c.folding.toNat * if f = .rand then 1 else 0) (c.callOrFault name f args) := by
  have hcall : DrawsAtMost (c.folding.toNat * if f = .rand then 1 else 0)
      (c.call name f args).run := by
    by_cases hfolding : c.folding = true
    · rw [call, if_pos hfolding, hfolding, Bool.toNat_true, Nat.one_mul]
      exact drawsAtMost_foldCall name f args
    · rw [call, if_neg hfolding]
      exact drawsAtMost_pure _ _
  refine hcall.bind_zero fun outcome => ?_
  cases outcome <;> exact drawsAtMost_pure _ _

/-- Building arguments draws no more than building each of them. -/
theorem drawsAtMost_buildAll {args : List Phrase}
    (h : ∀ t ∈ args,
      DrawsAtMost (c.folding.toNat * t.callees.count Builtin.rand.name) (c.build t)) :
    DrawsAtMost (c.folding.toNat * (Phrase.calleesAll args).count Builtin.rand.name)
      (c.buildAll args) := by
  induction args with
  | nil => exact drawsAtMost_pure _ _
  | cons t args ih =>
    obtain ⟨ht, hargs⟩ := List.forall_mem_cons.mp h
    rw [Phrase.calleesAll, List.count_append, Nat.mul_add, buildAll]
    refine ht.bind fun outcome => ?_
    cases outcome with
    | error fault => exact drawsAtMost_pure _ _
    | ok e =>
      refine (ih hargs).bind_zero fun outcome => ?_
      cases outcome <;> exact drawsAtMost_pure _ _

/-- **Building draws at most one value for each call of `rand`**, whatever comes of it, and none
if the compiler does not fold. -/
theorem drawsAtMost_build (c : Compiler) (t : Phrase) :
    DrawsAtMost (c.folding.toNat * t.callees.count Builtin.rand.name) (c.build t) := by
  induction t using Phrase.inductionOn with
  | number p text => exact drawsAtMost_pure _ _
  | var p name => exact drawsAtMost_pure _ _
  | group p inner ih => exact ih
  | binary op p l r hl hr =>
    rw [Phrase.callees, List.count_append, Nat.mul_add, build]
    exact hl.bind fun x => hr.bind_zero fun y => drawsAtMost_pure _ _
  | call p name args ih =>
    cases hf : c.vocabulary.function? name with
    | none =>
      simp only [build, hf]
      exact drawsAtMost_pure _ _
    | some f =>
      rw [Phrase.count_callees_call hf, Nat.add_comm, Nat.mul_add]
      simp only [build, hf]
      refine (drawsAtMost_buildAll ih).bind fun outcome => ?_
      cases outcome with
      | error fault => exact drawsAtMost_pure _ _
      | ok built =>
        show DrawsAtMost _ (if f.arity.accepts built.length = true then _ else _)
        by_cases hcount : f.arity.accepts built.length = true
        · rw [if_pos hcount]
          exact c.drawsAtMost_callOrFault name f built
        · rw [if_neg hcount]
          exact drawsAtMost_pure _ _

/-- A phrase that is at fault is so with folding and without. Without it nothing is drawn. -/
theorem exists_run_build_of_fault {fault : Fault} (h : t.tree v = .error fault) (g : Random) :
    ∃ drawn ≤ t.callees.count Builtin.rand.name,
      (build ⟨v, false⟩ t).run g = (.error fault, g) ∧
      (build ⟨v, true⟩ t).run g = (.error fault, g.skip drawn) := by
  have hfault : ∀ folding, ((build ⟨v, folding⟩ t).run g).1 = .error fault := by
    intro folding
    obtain ⟨fault', g', htree, hrun⟩ | ⟨e, e', g', htree, -, -⟩ :=
      build_spec ⟨v, folding⟩ t g
    · cases htree.symm.trans h
      rw [hrun]
    · cases htree.symm.trans h
  obtain ⟨none, hnone, hunfolded⟩ := drawsAtMost_build ⟨v, false⟩ t g
  obtain ⟨drawn, hdrawn, hfolded⟩ := drawsAtMost_build ⟨v, true⟩ t g
  rw [Bool.toNat_false, Nat.zero_mul, Nat.le_zero] at hnone
  rw [Bool.toNat_true, Nat.one_mul] at hdrawn
  refine ⟨drawn, hdrawn, Prod.ext (hfault false) ?_, Prod.ext (hfault true) hfolded⟩
  rw [hunfolded, hnone, Random.skip_zero]

/-! ## Folding afterwards -/

/-- **Folding while compiling is folding afterwards.** A text compiles with folding exactly if it
does without. If it does not, both find the same fault. If it does, the folded tree is the one
that the unfolded tree is folded to from the leaves up, left operands before right ones, from the
same source. One value is drawn for each place where the tokens of the text call `rand`. They go
to the calls in the order of the text: the folded tree is also the one that is got without any
source if the `i`-th call in the unfolded tree is replaced by the constant that is upcoming `i`
draws ahead. A text with a fault has no more values drawn for it than it calls `rand`, and
without folding nothing is ever drawn. -/
theorem folding_afterwards (v : Vocabulary) (text : String) (g : Random) :
    ∃ ts, (∀ us, Lexes true {} text.toList us ↔ us = ts) ∧
      ((∃ fault, ∃ drawn ≤ Grammar.timesCalled Builtin.rand.name ts,
          (parse ⟨v, false⟩ text).run g = (.error fault, g) ∧
          (parse ⟨v, true⟩ text).run g = (.error fault, g.skip drawn)) ∨
        ∃ unfolded folded drawn, drawn = Grammar.timesCalled Builtin.rand.name ts ∧
          (parse ⟨v, false⟩ text).run g = (.ok unfolded, g) ∧
          (parse ⟨v, true⟩ text).run g = (.ok folded, g.skip drawn) ∧
          unfolded.fold.Gives g folded (g.skip drawn) ∧
          unfolded.randCalls = drawn ∧
          ∀ g', ((unfolded.replaceRand (fun i => .const (g.upcoming i)) 0).fold).Gives
            g' folded g') := by
  obtain ⟨ts, hts⟩ := exists_lexes true {} text.toList
  refine ⟨ts, fun us => ⟨fun hus => hus.unique hts, fun hus => hus ▸ hts⟩, ?_⟩
  cases hread : Phrase.ofText text.toList with
  | error fault =>
    -- a text that cannot be read is refused before anything is drawn
    exact Or.inl ⟨fault, 0, Nat.zero_le _, run_parse_of_error hread, run_parse_of_error hread⟩
  | ok t =>
    obtain ⟨-, ⟨us, hus, ht⟩, -⟩ := Phrase.ofText_eq_ok_iff.mp hread
    have hcount : t.callees.count Builtin.rand.name = Grammar.timesCalled Builtin.rand.name ts :=
      hus.unique hts ▸ ht.count_callees
    cases htree : t.tree v with
    | error fault =>
      obtain ⟨drawn, hdrawn, hunfolded, hfolded⟩ := exists_run_build_of_fault htree g
      rw [← run_parse_of_ok hread] at hunfolded hfolded
      exact Or.inl ⟨fault, drawn, hcount ▸ hdrawn, hunfolded, hfolded⟩
    | ok e =>
      have hsaturated : e.Saturated := (Phrase.within_of_tree htree).saturated
      obtain ⟨folded, hfold, hreplaced⟩ := hsaturated.exists_fold_gives g 0
      rw [Random.skip_zero, Nat.zero_add] at hfold
      have hcalls : e.randCalls = Grammar.timesCalled Builtin.rand.name ts :=
        (Phrase.count_callees_of_tree htree).symm.trans hcount
      exact Or.inr ⟨e, folded, e.randCalls, hcalls, run_parse_unfolded hread htree g,
        run_parse_folded hread htree hfold, hfold, rfl, hreplaced⟩

end Compiler

end FormulaSynth
