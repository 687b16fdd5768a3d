import FormulaSynth.Proofs.Expr.Folding
/-!
# Trees that are folded already

A tree is *normal* if folding has nothing to do in it: no operation has two constants to
work on or an operand that an identity makes superfluous, and every call has an argument
that is no constant. Folding leaves such a tree as it is (`Expr.Normal.fold_gives`).

The trees that folding makes of constants and variables, one node at a time, are the
*built* ones, and every tree that is folded as a whole comes out as one of them
(`Expr.built_of_fold_gives`). Built trees are normal (`Expr.Built.normal`). That is a
matter of single nodes: a folded operation is a constant, an operand or an operation that
nothing applies to, so there is nothing to fold that was not there before.
-/

namespace FormulaSynth

namespace Expr

/-- **A tree in which folding has nothing to do.** -/
inductive Normal : Expr → Prop where
  | const (v : Int32) : Normal (const v)
  | var (name : String) : Normal (var name)
  | binary {op : Operation} {l r : Expr} : ¬ (l.isConstant = true ∧ r.isConstant = true) →
      identity? op l r = none → Normal l → Normal r → Normal (binary op l r)
  | call {name : String} {f : Builtin} {args : List Expr} : (∃ a ∈ args, a.isConstant = false) →
      (∀ a ∈ args, Normal a) → Normal (call name f args)

variable {op : Operation} {l r e e' : Expr} {name : String} {f : Builtin} {args args' : List Expr}
  {g g' : Random}

/-! ## Single nodes -/

/-- Only two constants keep an operation from its identities. -/
theorem foldBinary_of_not_constants (h : ¬ (l.isConstant = true ∧ r.isConstant = true)) :
    foldBinary op l r = (identity? op l r).getD (binary op l r) := by
  unfold foldBinary
  split
  · next x y hx hy =>
    exact absurd ⟨by rw [isConstant, hx]; rfl, by rw [isConstant, hy]; rfl⟩ h
  · rfl

/-- **Folding an operation on normal trees gives a normal tree.** -/
theorem Normal.foldBinary (hl : l.Normal) (hr : r.Normal) (op : Operation) :
    (foldBinary op l r).Normal := by
  by_cases hconstants : l.isConstant = true ∧ r.isConstant = true
  · obtain ⟨⟨x, rfl⟩, ⟨y, rfl⟩⟩ := hconstants.imp isConstant_iff.mp isConstant_iff.mp
    exact .const _
  · rw [foldBinary_of_not_constants hconstants]
    cases hidentity : identity? op l r with
    | none => exact .binary hconstants hidentity hl hr
    | some e =>
      -- an identity leaves an operand or zero
      obtain ⟨-, -, rfl⟩ | ⟨-, -, rfl⟩ | ⟨-, -, rfl⟩ | ⟨-, -, rfl⟩ | ⟨-, -, rfl⟩ :=
        identity?_cases hidentity
      · exact hr
      · exact hl
      · exact .const 0
      · exact .const 0
      · exact hl

/-- **So does folding a call.** -/
theorem Normal.of_foldCall_gives (hargs : ∀ a ∈ args, a.Normal)
    (h : (foldCall name f args).Gives g e g') : e.Normal := by
  unfold foldCall at h
  split at h
  · obtain ⟨block, g₁, -, hconst⟩ := h.of_bind
    obtain ⟨rfl, -⟩ := hconst.of_pure
    exact .const _
  · next hvariable =>
    obtain ⟨rfl, -⟩ := h.of_pure
    exact .call (by simpa using hvariable) hargs

/-! ## Trees -/

/-- Arguments that each fold to themselves do so together. -/
theorem foldAll_gives_self (h : ∀ a ∈ args, ∀ g, a.fold.Gives g a g) (g : Random) :
    (foldAll args).Gives g args g := by
  induction args with
  | nil => exact Evaluation.gives_pure [] g
  | cons a args ih =>
    obtain ⟨ha, hargs⟩ := List.forall_mem_cons.mp h
    exact (ha g).bind ((ih hargs).bind (Evaluation.gives_pure (a :: args) g))

/-- **A normal tree folds to itself** and draws nothing. -/
theorem Normal.fold_gives (h : e.Normal) : ∀ g, e.fold.Gives g e g := by
  induction h with
  | const v => exact fun g => Evaluation.gives_pure (Expr.const v) g
  | var name => exact fun g => Evaluation.gives_pure (Expr.var name) g
  | @binary op l r hconstants hidentity _ _ hl hr =>
    intro g
    have hfold : Expr.foldBinary op l r = .binary op l r := by
      rw [foldBinary_of_not_constants hconstants, hidentity]
      rfl
    rw [fold, ← hfold]
    exact (hl g).bind ((hr g).bind (Evaluation.gives_pure _ g))
  | @call name f args hvariable _ hargs =>
    intro g
    have hfold : foldCall name f args = pure (.call name f args) :=
      if_neg (by simpa using hvariable)
    rw [fold]
    refine (foldAll_gives_self hargs g).bind ?_
    rw [hfold]
    exact Evaluation.gives_pure _ g

/-- Nothing is left to fold in several trees if nothing is in each of them. -/
theorem allFullyFolded_of_forall (h : ∀ a ∈ args, a.isFullyFolded = true) :
    allFullyFolded args = true := by
  induction args with
  | nil => rfl
  | cons a args ih =>
    obtain ⟨ha, hargs⟩ := List.forall_mem_cons.mp h
    rw [allFullyFolded, ha, ih hargs]
    rfl

/-- The test for trees that are fully folded accepts normal trees. -/
theorem Normal.isFullyFolded_eq_true (h : e.Normal) : e.isFullyFolded = true := by
  induction h with
  | const v => rfl
  | var name => rfl
  | @binary op l r hconstants _ _ _ hl hr =>
    have hvariable : (l.isConstant && r.isConstant) = false :=
      Bool.eq_false_iff.mpr fun h => hconstants (Bool.and_eq_true_iff.mp h)
    rw [isFullyFolded, hvariable, hl, hr]
    rfl
  | call hvariable _ hargs =>
    rw [isFullyFolded, allFullyFolded_of_forall hargs]
    simpa using hvariable

/-! ## Trees built by folding -/

/-- **A tree built by folding**, from constants and variables on, with an operation or a call
at a time. The calls that are evaluated may draw from any source. -/
inductive Built : Expr → Prop where
  | const (v : Int32) : Built (const v)
  | var (name : String) : Built (var name)
  | binary (op : Operation) {l r : Expr} : Built l → Built r → Built (foldBinary op l r)
  | call {name : String} {f : Builtin} {args : List Expr} {e : Expr} {g g' : Random} :
      (∀ a ∈ args, Built a) → (foldCall name f args).Gives g e g' → Built e

/-- **A tree built by folding is normal.** -/
theorem Built.normal (h : e.Built) : e.Normal := by
  induction h with
  | const v => exact .const v
  | var name => exact .var name
  | binary op _ _ hl hr => exact hl.foldBinary hr op
  | call _ hcall hargs => exact .of_foldCall_gives hargs hcall

/-- Arguments that were folded are built if each of them is. -/
theorem built_of_foldAll_gives
    (hargs : ∀ a ∈ args, ∀ {g a' g'}, a.fold.Gives g a' g' → a'.Built)
    (h : (foldAll args).Gives g args' g') : ∀ a ∈ args', a.Built := by
  induction args generalizing args' g g' with
  | nil =>
    obtain ⟨rfl, -⟩ := h.of_pure
    exact fun a ha => absurd ha List.not_mem_nil
  | cons a args ih =>
    obtain ⟨ha, hargs⟩ := List.forall_mem_cons.mp hargs
    obtain ⟨a', g₁, ha', h⟩ := h.of_bind
    obtain ⟨rest, g₂, hrest, h⟩ := h.of_bind
    obtain ⟨rfl, -⟩ := h.of_pure
    exact List.forall_mem_cons.mpr ⟨ha ha', ih hargs hrest⟩

/-- **Folding a tree builds one.** -/
theorem built_of_fold_gives (h : e.fold.Gives g e' g') : e'.Built := by
  induction e using inductionOn generalizing e' g g' with
  | const v =>
    obtain ⟨rfl, -⟩ := h.of_pure
    exact .const v
  | var name =>
    obtain ⟨rfl, -⟩ := h.of_pure
    exact .var name
  | binary op l r hl hr =>
    rw [fold] at h
    obtain ⟨l', g₁, hl', h⟩ := h.of_bind
    obtain ⟨r', g₂, hr', h⟩ := h.of_bind
    obtain ⟨rfl, -⟩ := h.of_pure
    exact .binary op (hl hl') (hr hr')
  | call name f args ih =>
    rw [fold] at h
    obtain ⟨args', g₁, hargs, h⟩ := h.of_bind
    exact .call (built_of_foldAll_gives (fun a ha => ih a ha) hargs) h

end Expr

end FormulaSynth
