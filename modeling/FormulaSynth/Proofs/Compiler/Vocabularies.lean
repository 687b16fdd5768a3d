import FormulaSynth.Proofs.Compiler.Acceptance
/-!
# Larger vocabularies

A vocabulary that knows more names accepts more. What a smaller one accepts it accepts too,
with the same tree and the same draws, and what the smaller one refuses for any other reason
than a name it does not know is refused for that reason still (`Compiler.parse_of_extends`).

That the names of a text are looked up at all is what has to be argued about. A name decides
which of several faults is met first, and whether the arguments of a call are looked into, so
the two readings are followed side by side: as long as the smaller vocabulary has not met a
name it does not know, `Phrase.Resolved`, they have done the same.
-/

namespace FormulaSynth

/-- No two functions have the same name. -/
theorem Builtin.eq_of_name_eq {f f' : Builtin} : f.name = f'.name → f = f' := by
  have h : ∀ f ∈ all, ∀ f' ∈ all, f.name = f'.name → f = f' := by decide
  exact h f (mem_all f) f' (mem_all f')

namespace Vocabulary

/-- **A vocabulary with all the names of another**, where they mean the same. -/
structure Extends (v' v : Vocabulary) : Prop where
  variables_mem : ∀ name ∈ v.variableNames, name ∈ v'.variableNames
  functions_eq : ∀ name f, v.function? name = some f → v'.function? name = some f

/-- A vocabulary has the functions in its list, each under its own name. -/
theorem function?_eq_some_iff {v : Vocabulary} {name : String} {f : Builtin} :
    v.function? name = some f ↔ f ∈ v.functions ∧ f.name = name := by
  refine ⟨mem_of_function?, ?_⟩
  rintro ⟨hf, rfl⟩
  obtain ⟨f', hf'⟩ : ∃ f', v.function? f.name = some f' :=
    Option.isSome_iff_exists.mp (List.find?_isSome.mpr ⟨f, hf, beq_self_eq_true _⟩)
  rw [hf', Builtin.eq_of_name_eq (mem_of_function? hf').2]

/-- More functions and more variables make a vocabulary larger, as no name stands for two
functions. -/
theorem extends_of_subset {v v' : Vocabulary} (hfunctions : ∀ f ∈ v.functions, f ∈ v'.functions)
    (hnames : ∀ name ∈ v.variableNames, name ∈ v'.variableNames) : v'.Extends v where
  variables_mem := hnames
  functions_eq := by
    intro name f h
    obtain ⟨hf, hname⟩ := function?_eq_some_iff.mp h
    exact function?_eq_some_iff.mpr ⟨hfunctions f hf, hname⟩

end Vocabulary

/-- **The fault of a name that a vocabulary does not know.** -/
def Cause.UnknownName : Cause → Prop
  | unknownVariable _ | unknownFunction _ => True
  | tooDeep | unexpected _ | tooLong | numberOutOfRange _ | argumentCount _ _ | unevaluable _ =>
    False

namespace Phrase

/-! ## Readings that met no unknown name -/

/-- **A reading that no unknown name put an end to.** It has come to its end, or to another
fault. -/
def Resolved {α : Type} (x : Except Fault α) : Prop :=
  ∀ fault, x = .error fault → ¬ fault.cause.UnknownName

section Resolved

variable {α β : Type} {x x' : Except Fault α} {f f' : α → Except Fault β}

theorem resolved_ok (a : α) : Resolved (.ok a : Except Fault α) := by
  intro fault h
  cases h

/-- If no unknown name put an end to two readings, one after the other, then none put an end
to the first, and none to the second. -/
theorem Resolved.of_bind (h : Resolved (x >>= f)) :
    Resolved x ∧ ∀ a, x = .ok a → Resolved (f a) := by
  constructor
  · rintro fault rfl
    exact h fault rfl
  · rintro a rfl
    exact h

/-- Two readings, one after the other, are done again as they were if each of them is. -/
theorem Resolved.bind_congr (h : Resolved (x >>= f)) (hx : Resolved x → x' = x)
    (hf : ∀ a, Resolved (f a) → f' a = f a) : (x' >>= f') = (x >>= f) := by
  obtain ⟨hfirst, hsecond⟩ := h.of_bind
  rw [hx hfirst]
  cases x with
  | error fault => rfl
  | ok a => exact hf a (hsecond a rfl)

end Resolved

variable {v v' : Vocabulary}

/-- Arguments that are each read again as they were are so together. -/
theorem trees_of_extends {args : List Phrase}
    (ih : ∀ t ∈ args, Resolved (t.tree v) → t.tree v' = t.tree v)
    (h : Resolved (trees v args)) : trees v' args = trees v args := by
  induction args with
  | nil => rfl
  | cons t args ihargs =>
    rw [trees] at h
    rw [trees, trees]
    refine h.bind_congr (ih t List.mem_cons_self) fun e he => ?_
    exact he.bind_congr (ihargs fun u hu => ih u (List.mem_cons_of_mem _ hu)) fun _ _ => rfl

/-- **The larger vocabulary reads a phrase as the smaller one does**, unless the smaller one
does not know a name. -/
theorem tree_of_extends (hv : v'.Extends v) {t : Phrase} (h : Resolved (t.tree v)) :
    t.tree v' = t.tree v := by
  induction t using inductionOn with
  | number p text => rw [tree, tree]
  | var p name =>
    rw [tree] at h
    rw [tree, tree]
    by_cases hname : name ∈ v.variableNames
    · rw [if_pos hname, if_pos (hv.variables_mem name hname)]
    · rw [if_neg hname] at h
      exact absurd trivial (h _ rfl)
  | group p inner ih => exact ih h
  | binary op p l r hl hr =>
    rw [tree] at h
    rw [tree, tree]
    exact h.bind_congr hl fun l' hl' => hl'.bind_congr hr fun _ _ => rfl
  | call p name args ih =>
    rw [tree] at h
    rw [tree, tree]
    cases hf : v.function? name with
    | none =>
      -- the arguments have not been looked into
      rw [hf] at h
      exact absurd trivial (h _ rfl)
    | some f =>
      rw [hf] at h
      rw [hv.functions_eq name f hf]
      exact h.bind_congr (trees_of_extends ih) fun _ _ => rfl

end Phrase

namespace Compiler

variable {c c' : Compiler} {t : Phrase} {g g' : Random} {e : Expr} {fault : Fault}

/-- Compilers that both fold, or both do not, leave a tree the same. -/
theorem finish_congr (hfolding : c'.folding = c.folding) (e : Expr) : c'.finish e = c.finish e := by
  unfold finish
  rw [hfolding]

/-- **What the smaller vocabulary builds the larger one builds**, from the same source. -/
theorem run_build_of_extends (hv : c'.vocabulary.Extends c.vocabulary)
    (hfolding : c'.folding = c.folding) (h : (c.build t).run g = (.ok e, g')) :
    (c'.build t).run g = (.ok e, g') := by
  obtain ⟨fault, g₁, htree, hrun⟩ | ⟨e₁, e₂, g₁, htree, hfinish, hrun⟩ := c.build_spec t g
  · cases hrun.symm.trans h
  · cases hrun.symm.trans h
    have htree' : t.tree c'.vocabulary = .ok e₁ := by
      rw [Phrase.tree_of_extends hv (htree ▸ Phrase.resolved_ok e₁), htree]
    obtain ⟨fault, g₂, herror, -⟩ | ⟨e₃, e₄, g₂, hok, hfinish', hrun'⟩ := c'.build_spec t g
    · cases htree'.symm.trans herror
    · cases htree'.symm.trans hok
      rw [finish_congr hfolding] at hfinish'
      obtain ⟨rfl, rfl⟩ := hfinish.unique hfinish'
      exact hrun'

/-- **What the smaller vocabulary refuses although it knows the names** the larger one refuses
as well, from any source. -/
theorem run_build_error_of_extends (hv : c'.vocabulary.Extends c.vocabulary)
    (h : (c.build t).run g = (.error fault, g')) (hname : ¬ fault.cause.UnknownName)
    (g₁ : Random) : ∃ g₂, (c'.build t).run g₁ = (.error fault, g₂) := by
  obtain ⟨fault', g₃, htree, hrun⟩ | ⟨e₁, e₂, g₃, htree, hfinish, hrun⟩ := c.build_spec t g
  · cases hrun.symm.trans h
    have hresolved : Phrase.Resolved (t.tree c.vocabulary) := by
      intro other hother
      cases htree.symm.trans hother
      exact hname
    have htree' := (Phrase.tree_of_extends hv hresolved).trans htree
    obtain ⟨other, g₂, hother, hrun'⟩ | ⟨e₃, e₄, g₂, hok, -⟩ := c'.build_spec t g₁
    · cases htree'.symm.trans hother
      exact ⟨g₂, hrun'⟩
    · cases htree'.symm.trans hok
  · cases hrun.symm.trans h

/-- **A larger vocabulary accepts what a smaller one accepts.** Let two compilers fold, or both
not fold, and let the second know every name of the first with the same meaning. A text that the
first accepts is accepted by the second with the same tree, and it leaves the same source. A text
that the first refuses for another reason than a name it does not know is refused by the second
whatever the source, with the same fault, and so with the same line, column, message and rule. -/
theorem parse_of_extends (hfolding : c'.folding = c.folding)
    (hv : c'.vocabulary.Extends c.vocabulary) (text : String) :
    (∀ g e g', (c.parse text).run g = (.ok e, g') → (c'.parse text).run g = (.ok e, g')) ∧
    ∀ g fault g', (c.parse text).run g = (.error fault, g') → ¬ fault.cause.UnknownName →
      ∀ g₁, ∃ g₂, (c'.parse text).run g₁ = (.error fault, g₂) := by
  cases hread : Phrase.ofText text.toList with
  | error unread =>
    -- reading the text does not look at names
    simp only [run_parse_of_error hread]
    refine ⟨fun g e g' h => ?_, fun g fault g' h _ g₁ => ?_⟩
    · cases h
    · cases h
      exact ⟨g₁, rfl⟩
  | ok t =>
    simp only [run_parse_of_ok hread]
    exact ⟨fun g e g' => run_build_of_extends hv hfolding,
      fun g fault g' => run_build_error_of_extends hv⟩

/-- With more names `q ^ abs(-3)` is the same tree, and in `3000000000 * u` the number is still
at fault, although `u` is known now. -/
theorem parse_of_extends_number :
    let c : Compiler := { vocabulary := ⟨[.abs, .rand], ⟨["q"]⟩⟩ }
    let c' : Compiler := { vocabulary := ⟨Builtin.all, ⟨["q", "t", "u"]⟩⟩ }
    c'.vocabulary.Extends c.vocabulary ∧
    (∃ e, ∀ g, (c.parse "q ^ abs(-3)").run g = (.ok e, g) ∧
      (c'.parse "q ^ abs(-3)").run g = (.ok e, g)) ∧
    ∀ g, ∃ g', (c'.parse "3000000000 * u").run g =
      (.error ⟨.numberOutOfRange "3000000000", ⟨1, 1⟩⟩, g') := by
  intro c c'
  have hv : c'.vocabulary.Extends c.vocabulary :=
    Vocabulary.extends_of_subset (by decide) (by simp [c, c', ← NameSet.mem_toList])
  obtain ⟨haccept, -⟩ := parse_of_extends (show c'.folding = c.folding from rfl) hv "q ^ abs(-3)"
  obtain ⟨-, hrefuse⟩ := parse_of_extends (show c'.folding = c.folding from rfl) hv "3000000000 * u"
  exact ⟨hv, ⟨_, fun g => ⟨rfl, haccept g _ g rfl⟩⟩, hrefuse (Random.ofSeed 0) _ _ rfl id⟩

end Compiler

end FormulaSynth
