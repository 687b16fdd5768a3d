import FormulaSynth.Proofs.Compiler.Acceptance
/-!
# Compiling with and without folding

Whether a compiler folds makes no difference to what its formulas mean. There are
two sides to this. A formula that never calls `rand` has one meaning on blocks of
any length, and its two trees have it (`Compiler.folding_keeps_values`). A formula
that does call `rand` has its values drawn when it is compiled or when it is
evaluated. For blocks of one sample this comes to the same: the same value, after
the same draws (`Compiler.folding_keeps_draws`).

Nothing needs to be known of the random source for this. Folding takes one value
for each call, in the order of the text, which is the order of evaluation; and what
an identity drops has been drawn for by then.
-/

namespace FormulaSynth

/-- **A text that compiles with a vocabulary**, whether the compiler folds or not and
whatever the source is. -/
def Vocabulary.Accepts (v : Vocabulary) (text : String) : Prop :=
  ∃ folding g e g', (Compiler.parse ⟨v, folding⟩ text).run g = (.ok e, g')

/-- **A tree has its randomness from calls of the phrase it was read off.** -/
theorem Phrase.randFree_of_tree {v : Vocabulary} {t : Phrase} {e : Expr}
    (h : t.tree v = .ok e) (hr : Builtin.rand.name ∉ t.callees) : e.RandFree := by
  induction t using inductionOn generalizing e with
  | number p text =>
    rw [tree] at h
    split at h <;> cases h
    exact trivial
  | var p name =>
    rw [tree] at h
    split at h <;> cases h
    exact trivial
  | group p inner ih => exact ih h hr
  | binary op p l r hl hr' =>
    obtain ⟨l', hl', r', hr'', rfl⟩ := tree_binary_eq_ok.mp h
    exact ⟨hl hl' fun hmem => hr (List.mem_append_left _ hmem),
      hr' hr'' fun hmem => hr (List.mem_append_right _ hmem)⟩
  | call p name args ih =>
    obtain ⟨f, hf, es, hes, -, rfl⟩ := tree_call_eq_ok.mp h
    obtain ⟨hname, hargs⟩ := List.ne_and_not_mem_of_not_mem_cons hr
    refine Expr.allCalls_call.mpr ⟨?_, fun e he => ?_⟩
    · rintro rfl
      exact hname (Vocabulary.mem_of_function? hf).2
    · obtain ⟨t, ht, hte⟩ := exists_of_mem_trees hes he
      exact ih t ht hte fun hmem => hargs (mem_calleesAll.mpr ⟨t, ht, hmem⟩)

namespace Compiler

variable {v : Vocabulary} {text : String}

section Runs

variable {t : Phrase} {e : Expr}

/-- Without folding a text compiles to its tree. -/
theorem run_parse_unfolded (ht : Phrase.ofText text.toList = .ok t) (he : t.tree v = .ok e)
    (g : Random) : (parse ⟨v, false⟩ text).run g = (.ok e, g) := by
  rw [run_parse_of_ok ht]
  exact (run_build_eq_ok_iff rfl).mpr ⟨he, rfl⟩

/-- With folding it compiles to that tree folded. -/
theorem run_parse_folded {e' : Expr} {g g' : Random} (ht : Phrase.ofText text.toList = .ok t)
    (he : t.tree v = .ok e) (hfold : e.fold.Gives g e' g') :
    (parse ⟨v, true⟩ text).run g = (.ok e', g') := by
  rw [run_parse_of_ok ht]
  obtain ⟨fault, g₁, htree, -⟩ | ⟨e₁, e₂, g₁, htree, hfinish, hrun⟩ :=
    (⟨v, true⟩ : Compiler).build_spec t g
  · cases htree.symm.trans he
  · cases htree.symm.trans he
    obtain ⟨rfl, rfl⟩ := hfold.unique hfinish
    exact hrun

end Runs

/-- **A text compiles if it can be read** and the phrase it is stands for a tree. -/
theorem accepts_iff :
    v.Accepts text ↔ ∃ t e, Phrase.ofText text.toList = .ok t ∧ t.tree v = .ok e := by
  constructor
  · rintro ⟨folding, g, e', g', hparse⟩
    obtain ⟨t, ht, hrun⟩ := run_parse_eq_ok_iff.mp hparse
    obtain ⟨fault, g₁, -, hbuild⟩ | ⟨e, e₁, g₁, htree, -, -⟩ :=
      (⟨v, folding⟩ : Compiler).build_spec t g
    · cases hrun.symm.trans hbuild
    · exact ⟨t, e, ht, htree⟩
  · rintro ⟨t, e, ht, htree⟩
    exact ⟨false, Random.ofSeed 0, e, _, run_parse_unfolded ht htree _⟩

/-- **A text that compiles and never calls `rand` has two trees**, neither of which depends
on the source. The one comes of folding the other. -/
theorem exists_trees_of_accepts (h : v.Accepts text)
    (hcalls : ¬ Grammar.Calls Builtin.rand.name (Lexeme.ofText text.toList)) :
    ∃ folded unfolded, (∀ g, (parse ⟨v, true⟩ text).run g = (.ok folded, g)) ∧
      (∀ g, (parse ⟨v, false⟩ text).run g = (.ok unfolded, g)) ∧
      unfolded.RandFree ∧ unfolded.Within v ∧ ∀ g, unfolded.FoldsTo g folded := by
  obtain ⟨t, e, ht, he⟩ := accepts_iff.mp h
  obtain ⟨-, hsentence, -⟩ := Phrase.ofText_eq_ok_iff.mp ht
  have hrand : e.RandFree :=
    Phrase.randFree_of_tree he fun hmem => hcalls ((sentence_iff.mp hsentence).calls hmem)
  have hwithin : e.Within v := Phrase.within_of_tree he
  obtain ⟨e', hfold⟩ := hrand.fold_gives hwithin.saturated
  refine ⟨e', e, fun g => run_parse_folded ht he (hfold g), run_parse_unfolded ht he, hrand,
    hwithin, fun g => ?_⟩
  -- the tree folded from `g` is the one folded from any source
  obtain ⟨e₁, hfold', hfolds⟩ := Expr.fold_gives hwithin.saturated g
  obtain ⟨rfl, -⟩ := (hfold g).unique hfold'
  exact hfolds

/-- Both trees evaluate to one block. -/
theorem exists_block_of_accepts (h : v.Accepts text)
    (hcalls : ¬ Grammar.Calls Builtin.rand.name (Lexeme.ofText text.toList)) :
    ∃ folded unfolded, (∀ g, (parse ⟨v, true⟩ text).run g = (.ok folded, g)) ∧
      (∀ g, (parse ⟨v, false⟩ text).run g = (.ok unfolded, g)) ∧
      ∀ (b : Bindings) (n : Nat), (∀ name ∈ v.variableNames, b.Covers n name) →
        ∃ block, block.length = n ∧
          ∀ g, (folded.eval b n).Gives g block g ∧ (unfolded.eval b n).Gives g block g := by
  obtain ⟨e', e, hfolded, hunfolded, hrand, hwithin, hfolds⟩ := exists_trees_of_accepts h hcalls
  have hsupplied : e.Supplied := hwithin.saturated.supplied
  refine ⟨e', e, hfolded, hunfolded,
    fun b n hb => ⟨e.values b n, e.length_values b n, fun g => ?_⟩⟩
  have hcovers : ∀ name ∈ e.occurrences, b.Covers n name :=
    fun name hn => hb name (hwithin.variables_mem name hn)
  refine ⟨?_, hrand.eval_gives hsupplied hcovers g⟩
  rw [← (hfolds g).values_eq hrand]
  exact (hfolds g).eval_gives hsupplied hcovers g

/-- **Folding keeps the values of a formula without randomness**, on blocks of any
length and whatever its variables are: both its trees evaluate to one block. Node by
node, a folded operation evaluates to what the operation evaluates to, and so does a
folded call that has the arguments its function reads. -/
theorem folding_keeps_values :
    (∀ (v : Vocabulary) (text : String), v.Accepts text →
      ¬ Grammar.Calls Builtin.rand.name (Lexeme.ofText text.toList) →
      ∃ folded unfolded, (∀ g, (parse ⟨v, true⟩ text).run g = (.ok folded, g)) ∧
        (∀ g, (parse ⟨v, false⟩ text).run g = (.ok unfolded, g)) ∧
        ∀ (b : Bindings) (n : Nat), (∀ name ∈ v.variableNames, b.Covers n name) →
          ∃ block, block.length = n ∧
            ∀ g, (folded.eval b n).Gives g block g ∧ (unfolded.eval b n).Gives g block g) ∧
    (∀ (op : Operation) (l r : Expr) (b : Bindings) (n : Nat), l.RandFree → r.RandFree →
      (∀ name ∈ (Expr.binary op l r).occurrences, b.Covers n name) →
      (∀ g block g', ((Expr.binary op l r).eval b n).Gives g block g' →
        ((Expr.foldBinary op l r).eval b n).Gives g block g') ∧
      (l.Supplied → r.Supplied → ∃ block, block.length = n ∧
        ∀ g, ((Expr.foldBinary op l r).eval b n).Gives g block g ∧
          ((Expr.binary op l r).eval b n).Gives g block g)) ∧
    (∀ (name : String) (f : Builtin) (args : List Expr), f ≠ .rand → f.reads ≤ args.length →
      ∃ e, (∀ g, (Expr.foldCall name f args).Gives g e g) ∧
        ∀ b n, e.eval b n = (Expr.call name f args).eval b n) := by
  refine ⟨fun v text haccepts hcalls => exists_block_of_accepts haccepts hcalls,
    fun op l r b n hl hr hb => ⟨fun g block g' h => ?_, fun hls hrs => ?_⟩,
    fun name f args hf hs => ?_⟩
  · exact Expr.eval_foldBinary_of_gives hl hr hb h
  · exact ⟨_, Expr.length_values b n _,
      Expr.eval_foldBinary_gives_of_supplied hl hr hls hrs hb⟩
  · obtain ⟨e, hgives, heval, -⟩ := Expr.foldCall_gives name hf hs
    exact ⟨e, hgives, heval⟩

/-- A factor of zero makes the argument of a call matter to neither tree. -/
theorem folding_keeps_values_zero :
    ∃ folded unfolded block,
      (parse ⟨{ variableNames := ⟨["t"]⟩ }, true⟩ "0 * abs(t)").run (Random.ofSeed 0) =
        (.ok folded, Random.ofSeed 0) ∧
      (parse ⟨{ variableNames := ⟨["t"]⟩ }, false⟩ "0 * abs(t)").run (Random.ofSeed 0) =
        (.ok unfolded, Random.ofSeed 0) ∧
      block.length = 2 ∧
      (folded.eval [("t", [1, -2])] 2).Gives (Random.ofSeed 0) block (Random.ofSeed 0) ∧
      (unfolded.eval [("t", [1, -2])] 2).Gives (Random.ofSeed 0) block (Random.ofSeed 0) := by
  have haccepts : Vocabulary.Accepts { variableNames := ⟨["t"]⟩ } "0 * abs(t)" :=
    ⟨false, Random.ofSeed 0, _, _, rfl⟩
  have hcalls : ¬ Grammar.Calls Builtin.rand.name (Lexeme.ofText "0 * abs(t)".toList) :=
    fun h => absurd h.mem (by decide)
  have hcovers : ∀ name ∈ (⟨["t"]⟩ : NameSet), Bindings.Covers [("t", [1, -2])] 2 name := by
    intro name hname
    cases List.mem_singleton.mp hname
    exact ⟨[1, -2], rfl, rfl⟩
  obtain ⟨folded, unfolded, hfolded, hunfolded, hvalues⟩ :=
    folding_keeps_values.1 _ _ haccepts hcalls
  obtain ⟨block, hlength, hgives⟩ := hvalues [("t", [1, -2])] 2 hcovers
  exact ⟨folded, unfolded, block, hfolded _, hunfolded _, hlength, hgives _⟩

/-- **Folding keeps the draws of a formula** for one sample: compiled and evaluated
from a source, it has the same value with folding and without, and leaves the same
source behind, wherever its calls of `rand` stand. -/
theorem folding_keeps_draws (h : v.Accepts text) {b : Bindings}
    (hb : ∀ name ∈ v.variableNames, b.Covers 1 name) (g : Random) :
    ∃ folded g₁ unfolded g₂ value g',
      ((parse ⟨v, true⟩ text).run g = (.ok folded, g₁) ∧
        (folded.eval b 1).Gives g₁ [value] g') ∧
      ((parse ⟨v, false⟩ text).run g = (.ok unfolded, g₂) ∧
        (unfolded.eval b 1).Gives g₂ [value] g') := by
  obtain ⟨t, e, ht, he⟩ := accepts_iff.mp h
  have hwithin : e.Within v := Phrase.within_of_tree he
  have hsupplied : e.Supplied := hwithin.saturated.supplied
  have hcovers : ∀ name ∈ e.occurrences, b.Covers 1 name :=
    fun name hn => hb name (hwithin.variables_mem name hn)
  obtain ⟨e', hfold, hfolds⟩ := Expr.fold_gives hwithin.saturated g
  refine ⟨e', g.skip e.draws, e, g, e.sample (b.valuesAt 0) 1 0 g, g.skip e.draws,
    ⟨run_parse_folded ht he hfold, ?_⟩, run_parse_unfolded ht he g, ?_⟩
  · -- all draws are made by now, and the value is the sample that was drawn for
    rw [← hfolds.value_eq]
    exact hfolds.eval_gives hsupplied hcovers (g.skip e.draws)
  · have heval := Expr.eval_gives hsupplied hcovers g
    rw [Nat.one_mul] at heval
    exact heval

/-- What a factor of zero drops has been drawn for. -/
theorem folding_keeps_draws_zero :
    ∃ folded g₁ unfolded g₂ value g',
      ((parse ⟨{ variableNames := ⟨["t"]⟩ }, true⟩ "0*rand()+rand()").run (Random.ofSeed 7) =
          (.ok folded, g₁) ∧
        (folded.eval [("t", [5])] 1).Gives g₁ [value] g') ∧
      ((parse ⟨{ variableNames := ⟨["t"]⟩ }, false⟩ "0*rand()+rand()").run (Random.ofSeed 7) =
          (.ok unfolded, g₂) ∧
        (unfolded.eval [("t", [5])] 1).Gives g₂ [value] g') := by
  have htokens : Lexeme.ofText "0*rand()+rand()".toList =
      [⟨.number ['0'], ⟨1, 1⟩⟩, ⟨.operator .multiply, ⟨1, 2⟩⟩, ⟨.name "rand", ⟨1, 3⟩⟩,
        ⟨.opening, ⟨1, 7⟩⟩, ⟨.closing, ⟨1, 8⟩⟩, ⟨.operator .add, ⟨1, 9⟩⟩,
        ⟨.name "rand", ⟨1, 10⟩⟩, ⟨.opening, ⟨1, 14⟩⟩, ⟨.closing, ⟨1, 15⟩⟩] := by
    decide +kernel
  have hsentence : Sentence "0*rand()+rand()".toList
      (.binary .add ⟨1, 9⟩
        (.binary .multiply ⟨1, 2⟩ (.number ⟨1, 1⟩ ['0']) (.call ⟨1, 3⟩ "rand" []))
        (.call ⟨1, 10⟩ "rand" [])) := by
    rw [sentence_iff, htokens]
    exact Reading.State.run_initial_eq_ok_iff.mp
      (show Reading.State.initial.run {} _ = _ from rfl)
  have hread := Phrase.ofText_eq_ok_iff.mpr ⟨by decide +kernel, hsentence, by decide⟩
  have haccepts : Vocabulary.Accepts { variableNames := ⟨["t"]⟩ } "0*rand()+rand()" :=
    accepts_iff.mpr ⟨_, _, hread, rfl⟩
  have hcovers : ∀ name ∈ (⟨["t"]⟩ : NameSet), Bindings.Covers [("t", [5])] 1 name := by
    intro name hname
    cases List.mem_singleton.mp hname
    exact ⟨[5], rfl, rfl⟩
  exact folding_keeps_draws haccepts hcovers (Random.ofSeed 7)

end Compiler

end FormulaSynth
