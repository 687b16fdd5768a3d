import FormulaSynth.Proofs.Compiler.Folding
import FormulaSynth.Proofs.Compiler.Safety
import FormulaSynth.Proofs.Expr.Normal
import FormulaSynth.Proofs.Formula.Printing
/-!
# Reading back what was printed

A tree that is printed and compiled again comes back as it was, if its text is within the
limits that a text has to keep (`Compiler.reparses_display`). The printed text is read as a
phrase that shows the tree (`Expr.exists_sentence_print`), and such a phrase stands for the
tree in every vocabulary that the tree is within (`Phrase.Shows.tree_eq`). A compiler that
folds leaves it alone if it is normal.

A tree that a compiler made is within the vocabulary, and normal if the compiler folds. What
is left to say of it is that its variables can be printed and read: they were read from a
text, where only names are (`Compiler.isName_of_run_parse`).
-/

namespace FormulaSynth

open Grammar

/-! ## The tree a phrase shows -/

/-- The functions of a vocabulary have names that can be written. -/
theorem Builtin.isName_name (f : Builtin) : Token.IsName f.name.toList := by
  cases f <;> exact ⟨_, _, rfl, by decide, List.all_eq_true.mp (by decide)⟩

theorem Expr.Within.named {v : Vocabulary} {e : Expr} (h : e.Within v)
    (hnames : ∀ name ∈ e.occurrences, Token.IsName name.toList) : e.Named where
  variable_names := hnames
  call_names := h.calls.mono fun _ f _ hf =>
    (Vocabulary.mem_of_function? hf.1).2 ▸ f.isName_name

mutual

/-- **A phrase that shows a tree stands for it**, where the names of the tree are known. -/
theorem Phrase.Shows.tree_eq {v : Vocabulary} : ∀ {t : Phrase} {e : Expr}, t.Shows e →
    e.Within v → t.tree v = .ok e
  | _, _, .const p w, _ => by
    have hlower := w.le_toInt
    have hupper := w.toInt_lt
    rw [Phrase.tree, Decimal.toInt_ofInt, if_pos ⟨by omega, by omega⟩, Int32.ofInt_toInt]
  | _, _, .var p name, hw => if_pos (hw.variables_mem name List.mem_cons_self)
  | _, _, .binary op p q hl hr, hw =>
    (Phrase.tree_binary_eq_ok (p := q)).mpr
      ⟨_, hl.tree_eq hw.binary.1, _, hr.tree_eq hw.binary.2, rfl⟩
  | _, _, .call p name f hargs, hw =>
    Phrase.tree_call_eq_ok.mpr
      ⟨f, hw.call.1, _, hargs.trees_eq hw.call.2.2, hw.call.2.1, rfl⟩

/-- Phrases that show trees stand for them. -/
theorem Phrase.ShowsAll.trees_eq {v : Vocabulary} : ∀ {args : List Phrase} {es : List Expr},
    Phrase.ShowsAll args es → (∀ e ∈ es, e.Within v) → Phrase.trees v args = .ok es
  | _, _, .nil, _ => rfl
  | _, _, .cons ht hargs, hw =>
    Phrase.trees_cons_eq_ok.mpr
      ⟨_, ht.tree_eq (hw _ List.mem_cons_self), _,
        hargs.trees_eq fun e he => hw e (List.mem_cons_of_mem _ he), rfl⟩

end

/-! ## Names that were read -/

mutual

/-- **A variable of a tree was a name among the tokens.** -/
theorem Grammar.Derives.exists_name_mem {v : Vocabulary} {name : String} : ∀ {n : Nat}
    {ts : List Lexeme} {t : Phrase} {e : Expr}, Derives n ts t → t.tree v = .ok e →
      name ∈ e.occurrences → ∃ p, ⟨.name name, p⟩ ∈ ts
  | _, _, _, _, .number p text, h, hn => by
    rw [Phrase.tree] at h
    split at h
    · cases h
      exact absurd hn List.not_mem_nil
    · cases h
  | _, _, _, _, .variable_ p name', h, hn => by
    rw [Phrase.tree] at h
    split at h
    · cases h
      obtain rfl := List.mem_singleton.mp hn
      exact ⟨p, List.mem_cons_self⟩
    · cases h
  | _, _, _, _, .group p q hinner, h, hn =>
    (hinner.exists_name_mem h hn).imp fun r hr => by simp [hr]
  | _, _, _, _, .call p q r name' hargs, h, hn => by
    obtain ⟨f, -, es, hes, -, rfl⟩ := Phrase.tree_call_eq_ok.mp h
    exact (hargs.exists_name_mem hes hn).imp fun r hr => by simp [hr]
  | _, _, _, _, .above habove, h, hn => habove.exists_name_mem h hn
  | _, _, _, _, .chain p hl _ hr, h, hn => by
    obtain ⟨l', hl', r', hr', rfl⟩ := Phrase.tree_binary_eq_ok.mp h
    obtain hn | hn := List.mem_append.mp hn
    · exact (hl.exists_name_mem hl' hn).imp fun r hr => by simp [hr]
    · exact (hr.exists_name_mem hr' hn).imp fun r hr => by simp [hr]

/-- A variable of the trees of arguments was a name among their tokens. -/
theorem Grammar.Arguments.exists_name_mem {v : Vocabulary} {name : String} : ∀ {ts : List Lexeme}
    {args : List Phrase} {es : List Expr}, Arguments ts args → Phrase.trees v args = .ok es →
      name ∈ Expr.occurrencesAll es → ∃ p, ⟨.name name, p⟩ ∈ ts
  | _, _, _, .none, h, hn => by
    cases h
    exact absurd hn List.not_mem_nil
  | _, _, _, .last hlast, h, hn => by
    obtain ⟨e, he, rest, hrest, rfl⟩ := Phrase.trees_cons_eq_ok.mp h
    cases hrest
    exact hlast.exists_name_mem he (by simpa [Expr.occurrencesAll] using hn)
  | _, _, _, .more p hfirst hargs, h, hn => by
    obtain ⟨e, he, rest, hrest, rfl⟩ := Phrase.trees_cons_eq_ok.mp h
    obtain hn | hn := List.mem_append.mp hn
    · exact (hfirst.exists_name_mem he hn).imp fun r hr => by simp [hr]
    · exact (hargs.exists_name_mem hrest hn).imp fun r hr => by simp [hr]

end

/-- The names among the tokens of a text can be written. -/
theorem Lexes.isName_of_mem {signed : Bool} {p q : Position} {cs : List Char} {ts : List Lexeme}
    {name : String} (h : Lexes signed p cs ts) (hmem : ⟨.name name, q⟩ ∈ ts) :
    Token.IsName name.toList := by
  obtain ⟨after, pre, word, rest, hstands⟩ := h.exists_stands hmem
  obtain ⟨signed', hspells⟩ := hstands.spells
  obtain ⟨rfl, hname, -⟩ := hspells.name_eq
  exact hname

/-! ## Printing and compiling -/

/-- **A tree whose text is within the limits of reading**: no beginning of it opens too many
more parentheses than it closes, and the formula it is has no unit too many. -/
structure Expr.Legible (e : Expr) : Prop where
  nesting : ∀ pre, pre <+: e.print → pre.count '(' ≤ pre.count ')' + Nesting.limit
  size : ∀ t, Sentence e.print t → t.size + 3 ≤ Phrase.unitLimit

/-- **The text of a tree can be read**, and is read as a phrase that shows the tree. -/
theorem Expr.Legible.exists_ofText {e : Expr} (h : e.Legible) (hnamed : e.Named) :
    ∃ t, Phrase.ofText e.display.toList = .ok t ∧ t.Shows e := by
  obtain ⟨t, hsentence, hshows⟩ := exists_sentence_print hnamed
  rw [display, String.toList_ofList]
  exact ⟨t, Phrase.ofText_eq_ok_iff.mpr
    ⟨excess?_print_eq_none hnamed h.nesting, hsentence, h.size t hsentence⟩, hshows⟩

namespace Compiler

variable {c : Compiler} {v : Vocabulary} {text : String} {e e' : Expr} {g g' : Random}

/-- Finishing a tree leaves no variables but its own. -/
theorem occurrences_subset_of_finish_gives (h : (c.finish e).Gives g e' g') (hs : e.Saturated) :
    e'.occurrences ⊆ e.occurrences := by
  unfold finish at h
  split at h
  · obtain ⟨e₁, hfold, hfolds⟩ := Expr.fold_gives hs g
    obtain ⟨rfl, -⟩ := h.unique hfold
    exact hfolds.occurrences_subset
  · obtain ⟨rfl, -⟩ := h.of_pure
    exact List.Subset.refl _

/-- A tree that a text compiles to is the one that was read, finished. -/
theorem exists_finish_gives_of_run_parse (h : (c.parse text).run g = (.ok e, g')) :
    ∃ t e₁, Phrase.ofText text.toList = .ok t ∧ t.tree c.vocabulary = .ok e₁ ∧
      (c.finish e₁).Gives g e g' := by
  obtain ⟨t, ht, hrun⟩ := run_parse_eq_ok_iff.mp h
  obtain ⟨fault, g₁, -, hbuild⟩ | ⟨e₁, e₂, g₁, htree, hfinish, hbuild⟩ := c.build_spec t g
  · cases hrun.symm.trans hbuild
  · cases hrun.symm.trans hbuild
    exact ⟨t, e₁, ht, htree, hfinish⟩

/-- **The variables of a tree that was read can be written.** -/
theorem isName_of_run_parse (h : (c.parse text).run g = (.ok e, g')) {name : String}
    (hn : name ∈ e.occurrences) : Token.IsName name.toList := by
  obtain ⟨t, e₁, ht, htree, hfinish⟩ := exists_finish_gives_of_run_parse h
  obtain ⟨-, ⟨ts, hts, hder⟩, -⟩ := Phrase.ofText_eq_ok_iff.mp ht
  have hsaturated : e₁.Saturated := (Phrase.within_of_tree htree).saturated
  obtain ⟨p, hp⟩ :=
    hder.exists_name_mem htree (occurrences_subset_of_finish_gives hfinish hsaturated hn)
  exact hts.isName_of_mem hp

/-- **A compiler that folds makes its trees by folding.** -/
theorem built_of_run_parse (hc : c.folding = true) (h : (c.parse text).run g = (.ok e, g')) :
    e.Built := by
  obtain ⟨t, e₁, -, -, hfinish⟩ := exists_finish_gives_of_run_parse h
  rw [finish, if_pos hc] at hfinish
  exact Expr.built_of_fold_gives hfinish

/-- A compiler that folds makes normal trees only. -/
theorem normal_of_run_parse (hc : c.folding = true) (h : (c.parse text).run g = (.ok e, g')) :
    e.Normal :=
  (built_of_run_parse hc h).normal

/-- **A tree is read back from its text** without folding, and with folding if it is normal. -/
theorem run_parse_display (hw : e.Within v)
    (hnames : ∀ name ∈ e.occurrences, Token.IsName name.toList) (hlegible : e.Legible) :
    (∀ g, (parse ⟨v, false⟩ e.display).run g = (.ok e, g)) ∧
      (e.Normal → ∀ g, (parse ⟨v, true⟩ e.display).run g = (.ok e, g)) := by
  obtain ⟨t, ht, hshows⟩ := hlegible.exists_ofText (hw.named hnames)
  have htree : t.tree v = .ok e := hshows.tree_eq hw
  exact ⟨run_parse_unfolded ht htree,
    fun hnormal g => run_parse_folded ht htree (hnormal.fold_gives g)⟩

/-- **Printing and reading back is the identity** on trees whose text is within the limits of
reading, whose variables are names of the vocabulary and whose calls are of its functions, with
numbers of arguments these accept. A compiler without folding gives exactly the tree back,
from every source and without drawing from it; and so does one that folds, if there is
nothing to fold in the tree. In particular every compiler reads each tree it has made back
from its text. -/
theorem reparses_display :
    (∀ (v : Vocabulary) (e : Expr), e.Within v →
      (∀ name ∈ e.occurrences, Token.IsName name.toList) → e.Legible →
      (∀ g, (parse ⟨v, false⟩ e.display).run g = (.ok e, g)) ∧
        (e.Normal → ∀ g, (parse ⟨v, true⟩ e.display).run g = (.ok e, g))) ∧
    ∀ (c : Compiler) (text : String) (g : Random) (e : Expr) (g' : Random),
      (c.parse text).run g = (.ok e, g') → e.Legible →
        ∀ g₁, (c.parse e.display).run g₁ = (.ok e, g₁) := by
  refine ⟨fun v e hw hnames hlegible => run_parse_display hw hnames hlegible,
    fun c text g e g' h hlegible g₁ => ?_⟩
  obtain ⟨t, -, hrun⟩ := run_parse_eq_ok_iff.mp h
  obtain ⟨hunfolded, hfolded⟩ :=
    run_parse_display (within_of_run_build hrun) (fun _ hn => isName_of_run_parse h hn) hlegible
  obtain ⟨v, folding⟩ := c
  cases folding with
  | false => exact hunfolded g₁
  | true => exact hfolded (normal_of_run_parse rfl h) g₁

/-- A minus sign before a negative number is no trouble, and the lowest word is none either,
whether the tree was given or comes from a text that is not its own. -/
theorem reparses_display_lowest :
    let v : Vocabulary := { variableNames := ⟨["t"]⟩ }
    let e : Expr := .binary .subtract (.call "abs" .abs [.var "t"]) (.const (-0x80000000))
    let g := Random.ofSeed 0
    e.display = "(abs(t) - -2147483648)" ∧ (parse ⟨v, false⟩ e.display).run g = (.ok e, g) ∧
      e.Normal ∧ (parse ⟨v, true⟩ e.display).run g = (.ok e, g) ∧
      (parse ⟨v, true⟩ "abs(t)--2147483648").run g = (.ok e, g) ∧
      ∀ g₁, (parse ⟨v, true⟩ e.display).run g₁ = (.ok e, g₁) := by
  intro v e g
  have hprint : e.print = "(abs(t) - -2147483648)".toList := by decide +kernel
  have hwithin : e.Within v :=
    ⟨by decide, ⟨⟨rfl, rfl⟩, trivial, trivial⟩, trivial⟩
  have hnames : ∀ name ∈ e.occurrences, Token.IsName name.toList := by
    intro name hn
    obtain rfl := List.mem_singleton.mp hn
    exact ⟨'t', [], rfl, rfl, nofun⟩
  have hnesting : ∀ pre ∈ "(abs(t) - -2147483648)".toList.inits,
      pre.count '(' ≤ pre.count ')' + Nesting.limit := by decide
  obtain ⟨u, hu⟩ : ∃ u, Phrase.ofText "(abs(t) - -2147483648)".toList = .ok u := ⟨_, rfl⟩
  obtain ⟨-, hsentence, hsize⟩ := Phrase.ofText_eq_ok_iff.mp hu
  have hlegible : e.Legible := by
    refine ⟨fun pre hpre => ?_, fun t ht => ?_⟩
    · exact hnesting pre ((List.mem_inits pre _).mpr (hprint ▸ hpre))
    · rw [hprint] at ht
      rw [ht.unique hsentence]
      exact hsize
  have hnormal : e.Normal :=
    .binary (by decide) rfl (.call ⟨.var "t", List.mem_cons_self, rfl⟩ (by
      intro a ha
      obtain rfl := List.mem_singleton.mp ha
      exact .var "t")) (.const _)
  have hphrase : Phrase.ofText "abs(t)--2147483648".toList =
      .ok (.binary .subtract ⟨1, 7⟩ (.call ⟨1, 1⟩ "abs" [.var ⟨1, 5⟩ "t"])
        (.number ⟨1, 8⟩ "-2147483648".toList)) := rfl
  have hparse : (parse ⟨v, true⟩ "abs(t)--2147483648").run g = (.ok e, g) :=
    run_parse_folded hphrase rfl (hnormal.fold_gives g)
  obtain ⟨hgiven, hread⟩ := reparses_display
  obtain ⟨hunfolded, hfolded⟩ := hgiven v e hwithin hnames hlegible
  exact ⟨by rw [Expr.display, hprint, String.ofList_toList], hunfolded g, hnormal,
    hfolded hnormal g, hparse, hread _ _ g e g hparse hlegible⟩

end Compiler

end FormulaSynth
