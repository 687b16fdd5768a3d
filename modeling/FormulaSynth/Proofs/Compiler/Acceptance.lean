import FormulaSynth.Proofs.Compiler.Building
import FormulaSynth.Proofs.Formula.Sentences
/-!
# What a compiler accepts

A compiler that does not fold accepts exactly the sentences of the language whose
names, numbers and argument counts are in order, as far as they are not nested too
deeply or too long, and it gives the tree that the grammar reads from the text.
A text that is no sentence is refused for its syntax, and no sentence is
(`Compiler.accepts_grammar`).
-/

namespace FormulaSynth

/-! ## Faults of names, numbers and arguments -/

/-- **Faults that have nothing to do with how a text is put together.** -/
def Cause.Semantic : Cause → Prop
  | numberOutOfRange _ | unknownVariable _ | unknownFunction _ | argumentCount _ _ => True
  | tooDeep | unexpected _ | tooLong | unevaluable _ => False

/-- Reading the tree of a phrase fails for such faults only. -/
theorem Phrase.semantic_of_tree_eq_error {v : Vocabulary} {t : Phrase} {fault : Fault}
    (h : t.tree v = .error fault) : fault.cause.Semantic := by
  induction t using inductionOn generalizing fault with
  | number p text =>
    rw [tree] at h
    split at h <;> cases h
    trivial
  | var p name =>
    rw [tree] at h
    split at h <;> cases h
    trivial
  | group p inner ih => exact ih h
  | binary op p l r hl hr =>
    rw [tree] at h
    obtain h | ⟨l', -, h⟩ := bind_eq_error_iff.mp h
    · exact hl h
    · obtain h | ⟨r', -, h⟩ := bind_eq_error_iff.mp h
      · exact hr h
      · cases h
  | call p name args ih =>
    rw [tree] at h
    split at h
    · cases h
      trivial
    · obtain h | ⟨es, -, h⟩ := bind_eq_error_iff.mp h
      · obtain ⟨t, ht, hte⟩ := exists_of_trees_eq_error h
        exact ih t ht hte
      · split at h <;> cases h
        trivial

namespace Compiler

/-! ## Building and compiling -/

variable {c : Compiler} {t : Phrase} {text : String} {e : Expr} {g g' : Random}

/-- **Building without folding** builds the tree of the phrase and draws nothing. -/
theorem run_build_eq_ok_iff (hc : c.folding = false) :
    (c.build t).run g = (.ok e, g') ↔ t.tree c.vocabulary = .ok e ∧ g' = g := by
  obtain ⟨fault, g₁, htree, hrun⟩ | ⟨e₁, e₂, g₁, htree, hfinish, hrun⟩ := c.build_spec t g
  · rw [htree, hrun]
    constructor
    · intro h
      cases h
    · rintro ⟨h, -⟩
      cases h
  · unfold finish at hfinish
    rw [if_neg (by simp [hc])] at hfinish
    cases hfinish
    rw [htree, hrun]
    constructor
    · intro h
      cases h
      exact ⟨rfl, rfl⟩
    · rintro ⟨h, rfl⟩
      cases h
      rfl

/-- A phrase that cannot be built is not at fault for its syntax. -/
theorem semantic_of_run_build {fault : Fault} (h : (c.build t).run g = (.error fault, g')) :
    fault.cause.Semantic := by
  obtain ⟨fault', g₁, htree, hrun⟩ | ⟨e₁, e₂, g₁, htree, hfinish, hrun⟩ := c.build_spec t g
  · rw [hrun] at h
    cases h
    exact Phrase.semantic_of_tree_eq_error htree
  · rw [hrun] at h
    cases h

theorem run_parse_of_ok (h : Phrase.ofText text.toList = .ok t) :
    (c.parse text).run g = (c.build t).run g := by
  rw [parse, h]

theorem run_parse_of_error {fault : Fault} (h : Phrase.ofText text.toList = .error fault) :
    (c.parse text).run g = (.error fault, g) := by
  rw [parse, h]
  rfl

/-- **A text compiles if it can be read** and what was read can be built. -/
theorem run_parse_eq_ok_iff :
    (c.parse text).run g = (.ok e, g') ↔
      ∃ t, Phrase.ofText text.toList = .ok t ∧ (c.build t).run g = (.ok e, g') := by
  cases h : Phrase.ofText text.toList with
  | error fault =>
    rw [run_parse_of_error h]
    constructor
    · intro h
      cases h
    · rintro ⟨t, h, -⟩
      cases h
  | ok t =>
    rw [run_parse_of_ok h]
    refine ⟨fun hrun => ⟨t, rfl, hrun⟩, ?_⟩
    rintro ⟨u, hu, hrun⟩
    cases hu
    exact hrun

/-- **A text is refused for its syntax while it is read**, and not later. -/
theorem run_parse_eq_unexpected_iff :
    (∃ expected p, (c.parse text).run g = (.error ⟨.unexpected expected, p⟩, g')) ↔
      g' = g ∧ ∃ expected p, Phrase.ofText text.toList = .error ⟨.unexpected expected, p⟩ := by
  cases h : Phrase.ofText text.toList with
  | error fault =>
    rw [run_parse_of_error h]
    constructor
    · rintro ⟨expected, p, herror⟩
      cases herror
      exact ⟨rfl, expected, p, rfl⟩
    · rintro ⟨rfl, expected, p, herror⟩
      cases herror
      exact ⟨expected, p, rfl⟩
  | ok t =>
    rw [run_parse_of_ok h]
    constructor
    · rintro ⟨expected, p, herror⟩
      exact (semantic_of_run_build herror).elim
    · rintro ⟨-, expected, p, herror⟩
      cases herror

/-- **A compiler without folding accepts exactly the grammar.** A text falls into
tokens in one way, and they are an expression in at most one way. If they are one
of no more than the most units, whose names, numbers and argument counts are in
order, then the text compiles to the tree of that expression, and it compiles for no
other reason. If they are none, and only then, the text is refused for its syntax. -/
theorem accepts_grammar (hc : c.folding = false)
    (hnesting : Nesting.excess? text.toList = none) :
    ∃ ts, (∀ us, Lexes true {} text.toList us ↔ us = ts) ∧
      (∀ t u, Grammar.Derives 0 ts t → Grammar.Derives 0 ts u → t = u) ∧
      (∀ g e g', (c.parse text).run g = (.ok e, g') ↔
        g' = g ∧ ∃ t, Grammar.Derives 0 ts t ∧ t.size + 3 ≤ Phrase.unitLimit ∧
          t.tree c.vocabulary = .ok e) ∧
      (∀ g, (∃ expected p g', (c.parse text).run g = (.error ⟨.unexpected expected, p⟩, g')) ↔
        ∀ t, ¬ Grammar.Derives 0 ts t) := by
  obtain ⟨ts, hts⟩ := exists_lexes true {} text.toList
  -- there are no other tokens, so a reading of the text is a reading of these
  have hsentence : ∀ t, Sentence text.toList t ↔ Grammar.Derives 0 ts t := by
    refine fun t => ⟨?_, fun ht => ⟨ts, hts, ht⟩⟩
    rintro ⟨us, hus, ht⟩
    exact hts.unique hus ▸ ht
  refine ⟨ts, fun us => ⟨fun hus => hus.unique hts, fun hus => hus ▸ hts⟩,
    fun t u => Grammar.Derives.unique, fun g e g' => ?_, fun g => ?_⟩
  · rw [run_parse_eq_ok_iff]
    constructor
    · rintro ⟨t, ht, hrun⟩
      obtain ⟨-, hsent, hsize⟩ := Phrase.ofText_eq_ok_iff.mp ht
      obtain ⟨htree, hg⟩ := (run_build_eq_ok_iff hc).mp hrun
      exact ⟨hg, t, (hsentence t).mp hsent, hsize, htree⟩
    · rintro ⟨hg, t, hder, hsize, htree⟩
      have hread := Phrase.ofText_eq_ok_iff.mpr ⟨hnesting, (hsentence t).mpr hder, hsize⟩
      exact ⟨t, hread, (run_build_eq_ok_iff hc).mpr ⟨htree, hg⟩⟩
  · have hrefused : (∃ expected p, Phrase.ofText text.toList = .error ⟨.unexpected expected, p⟩) ↔
        ∀ t, ¬ Grammar.Derives 0 ts t := by
      rw [Phrase.ofText_eq_unexpected_iff hnesting]
      exact forall_congr' fun t => not_congr (hsentence t)
    rw [← hrefused]
    constructor
    · rintro ⟨expected, p, g', herror⟩
      exact (run_parse_eq_unexpected_iff.mp ⟨expected, p, herror⟩).2
    · intro h
      obtain ⟨expected, p, herror⟩ := run_parse_eq_unexpected_iff.mpr ⟨rfl, h⟩
      exact ⟨expected, p, g, herror⟩

/-- Operators of a level associate to the left, and a minus sign belongs to a number
only where an operand is expected. -/
theorem accepts_grammar_difference :
    ∃ ts t, Lexes true {} "1 -2 - t * -3".toList ts ∧ Grammar.Derives 0 ts t ∧
      t.tree {} = .ok (.binary .subtract (.binary .subtract (.const 1) (.const 2))
        (.binary .multiply (.var "t") (.const (-3)))) := by
  let c : Compiler := { folding := false }
  have hnesting : Nesting.excess? "1 -2 - t * -3".toList = none := by decide
  obtain ⟨ts, hts, -, haccept, -⟩ := accepts_grammar (show c.folding = false from rfl) hnesting
  obtain ⟨-, t, ht, -, htree⟩ := (haccept (Random.ofSeed 0) _ _).mp rfl
  exact ⟨ts, t, (hts ts).mpr rfl, ht, htree⟩

end Compiler

end FormulaSynth
