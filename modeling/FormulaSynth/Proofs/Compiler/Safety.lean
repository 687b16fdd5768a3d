import FormulaSynth.Proofs.Compiler.Acceptance
/-!
# Formulas that were accepted evaluate

A compiler looks at names and argument counts once, while it builds a tree. After that
nobody looks: a function takes its argument without asking whether there is one, and a
variable is expected to be bound. What makes this safe is that the tree is within the
vocabulary, `Expr.Within`. Building establishes that (`Phrase.within_of_tree`), folding
keeps it (`Expr.FoldsTo.within`), and an evaluation needs nothing else of the tree
(`Expr.Within.eval_gives`).

Folding evaluates calls already while the tree is built, with no variable bound. It
does so for calls on constants only, after their arguments were counted, and these
evaluate (`Expr.exists_eval_gives_of_isConstant`). So there is never a fault of the
compiler's own to report.
-/

namespace FormulaSynth

namespace Expr

variable {v : Vocabulary} {e e' : Expr}

/-- **Folding keeps a tree within the vocabulary**: what is left has its variables and
calls from the original. -/
theorem FoldsTo.within {g : Random} (h : e.FoldsTo g e') (hw : e.Within v) : e'.Within v where
  variables_mem name hn := hw.variables_mem name (h.occurrences_subset hn)
  calls := h.allCalls
    (fun name f count => v.function? name = some f ∧ f.arity.accepts count = true) hw.calls

/-- **A tree within the vocabulary evaluates** wherever the variables of the vocabulary
are bound, to one value for each sample. -/
theorem Within.eval_gives (h : e.Within v) {b : Bindings} {n : Nat}
    (hb : ∀ name ∈ v.variableNames, b.Covers n name) (g : Random) :
    ∃ block g', (e.eval b n).Gives g block g' ∧ block.length = n := by
  have hcovers : ∀ name ∈ e.occurrences, b.Covers n name :=
    fun name hn => hb name (h.variables_mem name hn)
  refine ⟨_, _, Expr.eval_gives h.saturated.supplied hcovers g, ?_⟩
  rw [List.length_map, List.length_range]

/-- Constants have no calls to check. -/
theorem allCalls_of_isConstant {q : String → Builtin → List Expr → Prop}
    (h : e.isConstant = true) : e.AllCalls q := by
  obtain ⟨w, rfl⟩ := isConstant_iff.mp h
  exact allCalls_const w

/-- Constants have no variables. -/
theorem not_mem_occurrences_of_isConstant (h : e.isConstant = true) (name : String) :
    name ∉ e.occurrences := by
  obtain ⟨w, rfl⟩ := isConstant_iff.mp h
  exact List.not_mem_nil

/-- **A call on constants evaluates without any variable bound**, if it has a number of
arguments its function accepts. For one sample it has one value. -/
theorem exists_eval_gives_of_isConstant (name : String) {f : Builtin} {args : List Expr}
    (harity : f.arity.accepts args.length = true) (hargs : args.all isConstant = true)
    (g : Random) : ∃ w g', ((call name f args).eval [] 1).Gives g [w] g' := by
  have hconstant : ∀ a ∈ args, a.isConstant = true := List.all_eq_true.mp hargs
  have hsaturated : (call name f args).Saturated :=
    allCalls_call.mpr ⟨harity, fun a ha => allCalls_of_isConstant (hconstant a ha)⟩
  have hcovers : ∀ x ∈ (call name f args).occurrences, Bindings.Covers [] 1 x := by
    intro x hx
    obtain ⟨a, ha, hxa⟩ := mem_occurrencesAll.mp hx
    exact absurd hxa (not_mem_occurrences_of_isConstant (hconstant a ha) x)
  exact ⟨_, _, eval_gives hsaturated.supplied hcovers g⟩

end Expr

/-! ## Faults of the compiler -/

/-- Faults of the compiler's own are the only ones that name the whole input. -/
theorem Cause.rule_eq_input_iff {c : Cause} :
    c.rule = "input" ↔ ∃ message, c = .unevaluable message := by
  cases c with
  | unexpected expected => cases expected <;> simp [rule, Expected.rule]
  | _ => simp [rule]

/-- **What reading a text can fail for.** -/
theorem Phrase.ofText_eq_error {text : List Char} {fault : Fault}
    (h : ofText text = .error fault) :
    ∃ p, fault = ⟨.tooDeep, p⟩ ∨ fault = ⟨.tooLong, p⟩ ∨
      ∃ expected, fault = ⟨.unexpected expected, p⟩ := by
  unfold ofText at h
  split at h
  case h_1 p _ =>
    cases h
    exact ⟨p, Or.inl rfl⟩
  case h_2 =>
    obtain h | ⟨t, -, h⟩ := bind_eq_error_iff.mp h
    · obtain ⟨expected, p, rfl⟩ := Reading.State.run_eq_error h
      exact ⟨p, Or.inr (Or.inr ⟨expected, rfl⟩)⟩
    · split at h <;> cases h
      exact ⟨_, Or.inr (Or.inl rfl)⟩

namespace Compiler

variable {c : Compiler} {t : Phrase} {text : String} {e e' : Expr} {g g' : Random}

/-- A tree within the vocabulary is left within it. -/
theorem within_of_finish_gives (h : (c.finish e).Gives g e' g')
    (hw : e.Within c.vocabulary) : e'.Within c.vocabulary := by
  unfold finish at h
  split at h
  · obtain ⟨e₁, hfold, hfolds⟩ := Expr.fold_gives hw.saturated g
    obtain ⟨rfl, -⟩ := h.unique hfold
    exact hfolds.within hw
  · obtain ⟨rfl, -⟩ := h.of_pure
    exact hw

/-- **What was built is within the vocabulary**, folded or not. -/
theorem within_of_run_build (h : (c.build t).run g = (.ok e, g')) : e.Within c.vocabulary := by
  obtain ⟨fault, g₁, -, hrun⟩ | ⟨e₁, e₂, g₁, htree, hfinish, hrun⟩ := c.build_spec t g
  · rw [hrun] at h
    cases h
  · rw [hrun] at h
    cases h
    exact within_of_finish_gives hfinish (Phrase.within_of_tree htree)

/-- **No text brings about a fault of the compiler's own.** -/
theorem ne_unevaluable_of_run_parse {fault : Fault}
    (h : (c.parse text).run g = (.error fault, g')) (message : String) :
    fault.cause ≠ .unevaluable message := by
  intro hcause
  cases hread : Phrase.ofText text.toList with
  | error fault' =>
    rw [run_parse_of_error hread] at h
    cases h
    obtain ⟨p, rfl | rfl | ⟨expected, rfl⟩⟩ := Phrase.ofText_eq_error hread <;> cases hcause
  | ok t =>
    rw [run_parse_of_ok hread] at h
    have hsemantic : fault.cause.Semantic := semantic_of_run_build h
    rw [hcause] at hsemantic
    exact hsemantic

/-! ## Safety -/

/-- **Formulas that were accepted evaluate.** If a text compiles, the variables of its tree
are in the vocabulary, and its calls are of functions there, with numbers of arguments
these accept. Wherever the variables of the vocabulary have a value for each of `n`
samples, the tree then evaluates to `n` values. If a text does not compile, that is not
for a fault of the compiler's own; in particular, a call on constants can be evaluated,
with no variable bound, as soon as its arguments are counted. -/
theorem accepted_evaluates (c : Compiler) (text : String) (g : Random) :
    (∀ e g', (c.parse text).run g = (.ok e, g') →
      (∀ name ∈ e.occurrences, name ∈ c.vocabulary.variableNames) ∧
      (e.AllCalls fun name f args =>
        c.vocabulary.function? name = some f ∧ f.arity.accepts args.length = true) ∧
      ∀ (b : Bindings) (n : Nat), (∀ name ∈ c.vocabulary.variableNames, b.Covers n name) →
        ∀ g₁, ∃ block g₂, (e.eval b n).Gives g₁ block g₂ ∧ block.length = n) ∧
    (∀ fault g', (c.parse text).run g = (.error fault, g') →
      (∀ message, fault.cause ≠ .unevaluable message) ∧ fault.diagnostic.rule ≠ "input") ∧
    ∀ (name : String) (f : Builtin) (args : List Expr),
      f.arity.accepts args.length = true → args.all Expr.isConstant = true →
        ∃ w g', ((Expr.call name f args).eval [] 1).Gives g [w] g' := by
  refine ⟨fun e g' h => ?_, fun fault g' h => ?_, fun name f args harity hargs =>
    Expr.exists_eval_gives_of_isConstant name harity hargs g⟩
  · obtain ⟨t, -, hrun⟩ := run_parse_eq_ok_iff.mp h
    have hwithin : e.Within c.vocabulary := within_of_run_build hrun
    exact ⟨hwithin.variables_mem, hwithin.calls, fun b n hb => hwithin.eval_gives hb⟩
  · refine ⟨ne_unevaluable_of_run_parse h, fun hrule => ?_⟩
    obtain ⟨message, hcause⟩ := Cause.rule_eq_input_iff.mp hrule
    exact ne_unevaluable_of_run_parse h message hcause

/-- A call that is left after folding evaluates, one without its argument is no fault of
the compiler's own, and one on a constant is evaluated at once. -/
theorem accepted_evaluates_abs :
    let c : Compiler := { vocabulary := { variableNames := NameSet.ofList ["t"] } }
    let g := Random.ofSeed 0
    let e : Expr := .call "abs" .abs [.var "t"]
    let fault : Fault := ⟨.argumentCount "abs" 0, ⟨1, 1⟩⟩
    (c.parse "abs(t)").run g = (.ok e, g) ∧
      (∃ block g', (e.eval [("t", [-5, 7])] 2).Gives g block g' ∧ block.length = 2) ∧
      (c.parse "abs()").run g = (.error fault, g) ∧ fault.diagnostic.rule ≠ "input" ∧
      ∃ w g', ((Expr.call "abs" .abs [.const (-5)]).eval [] 1).Gives g [w] g' := by
  intro c g e fault
  have hcovers : ∀ name ∈ c.vocabulary.variableNames, Bindings.Covers [("t", [-5, 7])] 2 name := by
    intro name hname
    obtain rfl : name = "t" := by simpa [c] using hname
    exact ⟨[-5, 7], rfl, rfl⟩
  have hparse : (c.parse "abs(t)").run g = (.ok e, g) := rfl
  have hrefused : (c.parse "abs()").run g = (.error fault, g) := rfl
  obtain ⟨haccepted, -, hconstant⟩ := accepted_evaluates c "abs(t)" g
  obtain ⟨-, -, heval⟩ := haccepted e g hparse
  obtain ⟨-, hfault, -⟩ := accepted_evaluates c "abs()" g
  exact ⟨hparse, heval _ 2 hcovers g, hrefused, (hfault fault g hrefused).2,
    hconstant "abs" .abs [.const (-5)] (by decide) (by decide)⟩

end Compiler

end FormulaSynth
