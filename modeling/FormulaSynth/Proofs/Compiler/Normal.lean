import FormulaSynth.Proofs.Compiler.Reparsing
/-!
# Compiled trees are folded already

A compiler that folds has nothing left to fold in the trees it makes
(`Compiler.folding_settles`). It makes them of nothing but folded operations and folded calls
(`Compiler.built_of_run_parse`), and such trees are normal whatever they were made of
(`Expr.Built.normal`).
-/

namespace FormulaSynth

/-- **A tree that folding is done with.** The test for such trees accepts it; what is more, no
identity applies to any of its operations; and made again from its leaves up, by folding every
operation and every call, it is the same tree. Nothing is drawn on the way. -/
structure Expr.Settled (e : Expr) : Prop where
  isFullyFolded_eq_true : e.isFullyFolded = true
  normal : e.Normal
  fold_gives : ∀ g, e.fold.Gives g e g

/-- Normal trees are settled. -/
theorem Expr.Normal.settled {e : Expr} (h : e.Normal) : e.Settled :=
  ⟨h.isFullyFolded_eq_true, h, h.fold_gives⟩

namespace Compiler

/-- **Folding is done once and for all.** Every tree built of constants, variables, folded
operations and folded calls is settled, and every tree that a compiler with folding makes of a
text is built like that. -/
theorem folding_settles :
    (∀ e : Expr, e.Built → e.Settled) ∧
    ∀ (c : Compiler) (text : String) (g : Random) (e : Expr) (g' : Random), c.folding = true →
      (c.parse text).run g = (.ok e, g') → e.Built ∧ e.Settled := by
  refine ⟨fun e h => h.normal.settled, fun c text g e g' hfolding h => ?_⟩
  have hbuilt : e.Built := built_of_run_parse hfolding h
  exact ⟨hbuilt, hbuilt.normal.settled⟩

/-- An operation that becomes one of its operands leaves no trace: neither in a tree that is
built by hand, where the operand is an operation of its own, nor in a compiled one. -/
theorem folding_settles_neutral :
    let e : Expr := .binary .shiftRight (.var "t") (.const 3)
    let v : Vocabulary := { variableNames := ⟨["t"]⟩ }
    let g := Random.ofSeed 0
    (Expr.foldBinary .add (.foldBinary .multiply (.var "x") (.const 0)) e).Settled ∧
      (parse ⟨v, true⟩ "(t ^ t) * 0 + (t >> (1 + 2))").run g = (.ok e, g) ∧ e.Settled := by
  intro e v g
  have hbuilt : (Expr.foldBinary .add (.foldBinary .multiply (.var "x") (.const 0)) e).Built :=
    .binary .add (.binary .multiply (.var "x") (.const 0))
      (.binary .shiftRight (.var "t") (.const 3))
  have hparse : (parse ⟨v, true⟩ "(t ^ t) * 0 + (t >> (1 + 2))").run g = (.ok e, g) := rfl
  obtain ⟨hgiven, hcompiled⟩ := folding_settles
  exact ⟨hgiven _ hbuilt, hparse, (hcompiled _ _ g e g rfl hparse).2⟩

end Compiler

end FormulaSynth
