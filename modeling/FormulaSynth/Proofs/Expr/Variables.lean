import FormulaSynth.Proofs.Expr.Folding
/-!
# What an evaluation reads

A tree reports the names of its variables without being evaluated, and an evaluation
looks values up without knowing of that report. They go through the tree separately,
and `Expr.Saturated.evaluation_reads` says that they meet the same names: bindings that
agree on the reported ones evaluate alike, and an evaluation fails exactly if a reported
one has no value.

Which failure it is follows the order of the text: it is that of the first variable an
evaluation objects to, `Expr.objection?`. That the calls have as many arguments as their
functions accept is needed for this. An argument too many is reported but not evaluated,
and an argument missing is a failure of its own.

A strict evaluation objects to a block of another length as well. With blocks of the
length asked for it is no different, and bindings of any lengths are admitted where an
evaluation is not strict.
-/

namespace FormulaSynth

namespace Evaluation

variable {α β : Type} {m : Evaluation α} {k : α → Evaluation β} {g g' g'' : Random} {a : α}
  {error error' : EvalError}

/-- **A computation fails**: started with the source `g` it ends with a failure, and leaves
the source `g'`. -/
def Fails (m : Evaluation α) (g : Random) (error : EvalError) (g' : Random) : Prop :=
  m.run.run g = (.error error, g')

theorem fails_throw (error : EvalError) (g : Random) :
    Fails (throw error : Evaluation α) g error g := rfl

/-- What fails before anything else fails altogether. -/
theorem Fails.bind (h : Fails m g error g') (k : α → Evaluation β) :
    Fails (m >>= k) g error g' := by
  unfold Fails at h ⊢
  rw [ExceptT.run_bind, StateT.run_bind, h]
  rfl

/-- What fails after a value has been given fails altogether. -/
theorem Gives.bind_fails (hm : Gives m g a g') (hk : Fails (k a) g' error g'') :
    Fails (m >>= k) g error g'' := by
  unfold Gives at hm
  unfold Fails at hk ⊢
  rw [ExceptT.run_bind, StateT.run_bind, hm]
  exact hk

/-- What gives a value does not fail. -/
theorem Gives.not_fails (h : Gives m g a g') : ¬ Fails m g error g'' := by
  intro hf
  cases h.symm.trans hf

/-- A computation has one failure. -/
theorem Fails.unique (h : Fails m g error g') (h' : Fails m g error' g'') : error = error' := by
  cases h.symm.trans h'
  rfl

end Evaluation

namespace Expr

/-! ## Nothing else is read -/

/-- **Bindings that agree on the variables of a tree** make one and the same computation of
it. -/
theorem eval_congr {b b' : Bindings} {e : Expr} (n : Nat) (strict : Bool)
    (h : ∀ name ∈ e.occurrences, b.lookup name = b'.lookup name) :
    e.eval b n strict = e.eval b' n strict := by
  induction e using inductionOn with
  | const v => rfl
  | var name => rw [eval, eval, h name (by simp [occurrences])]
  | binary op l r hl hr =>
    rw [eval, eval, hl fun name hn => h name (List.mem_append_left _ hn),
      hr fun name hn => h name (List.mem_append_right _ hn)]
  | call name f args ih =>
    by_cases hf : f = .rand
    · subst hf
      rfl
    · obtain ⟨w, hw⟩ := Builtin.exists_onWord? hf
      cases args with
      | nil => rw [eval_call_nil hw, eval_call_nil hw]
      | cons a rest =>
        rw [eval_call_cons hw, eval_call_cons hw,
          ih a List.mem_cons_self fun name hn => h name (List.mem_append_left _ hn)]

end Expr

/-! ## The first variable that is objected to -/

/-- **What an evaluation of `n` samples objects to in a variable**: that it has no value, or,
if the evaluation is strict, that its block is of another length. -/
def Bindings.objection? (b : Bindings) (n : Nat) (strict : Bool) (name : String) :
    Option EvalError :=
  match b.lookup name with
  | none => some (.unbound name)
  | some block =>
    if strict && block.length != n then some (.wrongLength name block.length n) else none

namespace Bindings

variable {b : Bindings} {n : Nat} {strict : Bool} {name : String} {error : EvalError}

/-- There is no objection to a block, unless lengths are looked at and its length is another. -/
theorem objection?_eq_none_iff : b.objection? n strict name = none ↔
    ∃ block, b.lookup name = some block ∧ (strict = true → block.length = n) := by
  unfold objection?
  cases b.lookup name with
  | none => simp
  | some block => simp

/-- With blocks of the length asked for a missing one is all that can be objected to. -/
theorem objection?_eq_some_iff (h : strict = true → ∀ block, b.lookup name = some block →
    block.length = n) :
    b.objection? n strict name = some error ↔ b.lookup name = none ∧ error = .unbound name := by
  cases hb : b.lookup name with
  | none => simp [objection?, hb, eq_comm]
  | some block =>
    have hnone : b.objection? n strict name = none :=
      objection?_eq_none_iff.mpr ⟨block, hb, fun hs => h hs block hb⟩
    simp [hnone]

/-- A strict evaluation has two objections. -/
theorem objection?_strict_eq_some_iff : b.objection? n true name = some error ↔
    (b.lookup name = none ∧ error = .unbound name) ∨
      ∃ block, b.lookup name = some block ∧ block.length ≠ n ∧
        error = .wrongLength name block.length n := by
  unfold objection?
  cases b.lookup name with
  | none => simp [eq_comm]
  | some block =>
    constructor
    · intro h
      by_cases hl : block.length = n
      · simp [hl] at h
      · have herror : EvalError.wrongLength name block.length n = error := by simpa [hl] using h
        exact .inr ⟨block, rfl, hl, herror.symm⟩
    · rintro (⟨hnone, -⟩ | ⟨found, hfound, hl, rfl⟩)
      · cases hnone
      · cases hfound
        simp [hl]

end Bindings

namespace Expr

/-- **The first objection** to a variable of a tree, in the order of the text. -/
def objection? (b : Bindings) (n : Nat) (strict : Bool) (e : Expr) : Option EvalError :=
  e.occurrences.findSome? (b.objection? n strict)

section Objection

variable {b : Bindings} {n : Nat} {strict : Bool} {e : Expr} {error : EvalError}

/-- It is to a variable, and there is none to those that stand before it. -/
theorem objection?_eq_some_iff : e.objection? b n strict = some error ↔
    ∃ before name after, e.occurrences = before ++ name :: after ∧
      b.objection? n strict name = some error ∧
      ∀ m ∈ before, b.objection? n strict m = none :=
  List.findSome?_eq_some_iff

/-- There is one if there is an objection to any variable of the tree. -/
theorem exists_objection?_iff : (∃ error, e.objection? b n strict = some error) ↔
    ∃ name ∈ e.variableNames, b.objection? n strict name ≠ none := by
  rw [← Option.isSome_iff_exists, objection?, List.findSome?_isSome_iff]
  simp only [mem_variableNames, ← Option.isSome_iff_ne_none]

theorem objection?_binary (b : Bindings) (n : Nat) (strict : Bool) (op : Operation)
    (l r : Expr) : (binary op l r).objection? b n strict =
      (l.objection? b n strict).or (r.objection? b n strict) :=
  List.findSome?_append

theorem objection?_call_singleton (b : Bindings) (n : Nat) (strict : Bool) (name : String)
    (f : Builtin) (a : Expr) :
    (call name f [a]).objection? b n strict = a.objection? b n strict := by
  simp only [objection?, occurrences, occurrencesAll, List.append_nil]

end Objection

/-! ## How an evaluation ends -/

/-- **The two ways an evaluation ends**: there is no objection to a variable and it gives a
block, or it fails with the first objection. -/
inductive Ends (b : Bindings) (n : Nat) (strict : Bool) (e : Expr) (g : Random) : Prop
  | gives (block : Block) (g' : Random) (hall : e.objection? b n strict = none)
      (h : (e.eval b n strict).Gives g block g')
  | fails (error : EvalError) (g' : Random) (hfirst : e.objection? b n strict = some error)
      (h : (e.eval b n strict).Fails g error g')

/-- **Every evaluation of a saturated tree ends in one of them.** The right operand of an
operation is evaluated only after the left one has given its block, which is why it is the
first objection that an evaluation fails with. -/
theorem Saturated.ends {e : Expr} (h : e.Saturated) (b : Bindings) (n : Nat) (strict : Bool)
    (g : Random) : e.Ends b n strict g := by
  induction h using Saturated.inductionOn generalizing g with
  | const v => exact .gives _ _ rfl (Evaluation.gives_pure _ g)
  | var name =>
    have hone : (var name).objection? b n strict = b.objection? n strict name := by
      simp [objection?, occurrences]
    rw [Bindings.objection?] at hone
    cases hb : b.lookup name with
    | none =>
      rw [hb] at hone
      refine .fails _ g hone ?_
      rw [eval_var_of_unbound hb]
      exact Evaluation.fails_throw _ g
    | some block =>
      simp only [hb] at hone
      by_cases hl : (strict && block.length != n) = true
      · rw [if_pos hl] at hone
        refine .fails _ g hone ?_
        simp only [eval, hb, if_pos hl]
        exact Evaluation.fails_throw _ g
      · rw [if_neg hl] at hone
        refine .gives block g hone ?_
        simp only [eval, hb, if_neg hl]
        exact Evaluation.gives_pure _ g
  | binary op l r hl hr ihl ihr =>
    obtain ⟨x, g₁, hxall, hx⟩ | ⟨error, g₁, hxfirst, hx⟩ := ihl g
    · have hsame : (binary op l r).objection? b n strict = r.objection? b n strict := by
        rw [objection?_binary, hxall, Option.none_or]
      obtain ⟨y, g₂, hyall, hy⟩ | ⟨error, g₂, hyfirst, hy⟩ := ihr g₁
      · exact .gives _ g₂ (hsame.trans hyall) (hx.bind (hy.bind (Evaluation.gives_pure _ _)))
      · exact .fails error g₂ (hsame.trans hyfirst) (hx.bind_fails (hy.bind _))
    · refine .fails error g₁ ?_ (hx.bind _)
      rw [objection?_binary, hxfirst, Option.some_or]
  | rand name h => exact .gives _ _ rfl (Evaluation.gives_draw n g)
  | word name f a w hw ha h ih =>
    obtain ⟨x, g₁, hall, hx⟩ | ⟨error, g₁, hfirst, hx⟩ := ih g
    · refine .gives (x.map w) g₁ ((objection?_call_singleton b n strict name f a).trans hall) ?_
      rw [eval_call_cons hw]
      exact hx.bind (Evaluation.gives_pure _ _)
    · refine .fails error g₁ ((objection?_call_singleton b n strict name f a).trans hfirst) ?_
      rw [eval_call_cons hw]
      exact hx.bind _

section Failure

variable {e : Expr} {b : Bindings} {n : Nat} {strict : Bool} {g : Random} {error : EvalError}

/-- **The failure of an evaluation is the first objection.** -/
theorem Saturated.fails_iff (h : e.Saturated) :
    (∃ g', (e.eval b n strict).Fails g error g') ↔ e.objection? b n strict = some error := by
  obtain ⟨block, g₁, hall, hgives⟩ | ⟨first, g₁, hfirst, hfails⟩ := h.ends b n strict g
  · constructor
    · rintro ⟨g', hf⟩
      exact absurd hf hgives.not_fails
    · intro hsome
      cases hall.symm.trans hsome
  · constructor
    · rintro ⟨g', hf⟩
      rw [hf.unique hfails, hfirst]
    · intro hsome
      cases hfirst.symm.trans hsome
      exact ⟨g₁, hfails⟩

/-- An evaluation fails if there is an objection to any of the variables. -/
theorem Saturated.exists_fails_iff (h : e.Saturated) :
    (∃ error g', (e.eval b n strict).Fails g error g') ↔
      ∃ name ∈ e.variableNames, b.objection? n strict name ≠ none := by
  rw [← exists_objection?_iff]
  exact exists_congr fun error => h.fails_iff

/-- The variable that an evaluation fails for, and those before it. -/
theorem Saturated.exists_first_of_fails (h : e.Saturated) {g' : Random}
    (hf : (e.eval b n strict).Fails g error g') :
    ∃ before name after, e.occurrences = before ++ name :: after ∧
      b.objection? n strict name = some error ∧
      ∀ m ∈ before, b.objection? n strict m = none :=
  objection?_eq_some_iff.mp (h.fails_iff.mp ⟨g', hf⟩)

end Failure

/-- **An evaluation reads the variables its tree reports, and nothing else.** Whatever the
bindings, the block length and the source, the evaluation of a saturated tree fails exactly if
the name of one of its variables has no value. The failure is then for the first of them in the
order of the text: every occurrence before it is of a variable that has a value. A strict
evaluation is asked for blocks of the length it is made for; given others, it fails for the
first variable that has no value or has one of another length. And bindings that agree on the
reported names evaluate alike from the same source, strictly or not, with the same values and
the same draws, or the same failure. -/
theorem Saturated.evaluation_reads {e : Expr} (h : e.Saturated) (n : Nat) :
    (∀ (strict : Bool) (b : Bindings) (g : Random),
      (strict = true → ∀ name ∈ e.variableNames, ∀ block, b.lookup name = some block →
        block.length = n) →
      ((∃ error g', (e.eval b n strict).Fails g error g') ↔
        ∃ name ∈ e.variableNames, b.lookup name = none) ∧
      ∀ error g', (e.eval b n strict).Fails g error g' →
        ∃ before name after, e.occurrences = before ++ name :: after ∧
          (∀ m ∈ before, (b.lookup m).isSome) ∧ b.lookup name = none ∧
          error.message = s!"no binding supplied for variable {name}") ∧
    (∀ (b : Bindings) (g : Random),
      ((∃ error g', (e.eval b n true).Fails g error g') ↔
        ∃ name ∈ e.variableNames, ∀ block, b.lookup name = some block → block.length ≠ n) ∧
      ∀ error g', (e.eval b n true).Fails g error g' →
        ∃ before name after, e.occurrences = before ++ name :: after ∧
          (∀ m ∈ before, ∃ block, b.lookup m = some block ∧ block.length = n) ∧
          (b.lookup name = none ∧
              error.message = s!"no binding supplied for variable {name}" ∨
            ∃ block, b.lookup name = some block ∧ block.length ≠ n ∧
              error.message = "assertion `left == right` failed: " ++
                s!"binding {name} has the wrong length" ++
                s!"\n  left: {block.length}\n right: {n}")) ∧
    ∀ (strict : Bool) (b b' : Bindings),
      (∀ name ∈ e.variableNames, b.lookup name = b'.lookup name) →
      ∀ g, (e.eval b n strict).run.run g = (e.eval b' n strict).run.run g := by
  refine ⟨fun strict b g hsized => ⟨?_, fun error g' hf => ?_⟩,
    fun b g => ⟨?_, fun error g' hf => ?_⟩, fun strict b b' hagree g => ?_⟩
  · rw [h.exists_fails_iff]
    refine exists_congr fun name => and_congr_right fun hname => ?_
    rw [Option.ne_none_iff_exists']
    simp only [Bindings.objection?_eq_some_iff fun hs => hsized hs name hname,
      exists_and_left, exists_eq, and_true]
  · obtain ⟨before, name, after, hsplit, hname, hbefore⟩ := h.exists_first_of_fails hf
    have hmem : name ∈ e.variableNames := mem_variableNames.mpr (by simp [hsplit])
    obtain ⟨hnone, rfl⟩ :=
      (Bindings.objection?_eq_some_iff fun hs => hsized hs name hmem).mp hname
    refine ⟨before, name, after, hsplit, fun m hm => ?_, hnone, rfl⟩
    obtain ⟨block, hblock, -⟩ := Bindings.objection?_eq_none_iff.mp (hbefore m hm)
    exact Option.isSome_iff_exists.mpr ⟨block, hblock⟩
  · rw [h.exists_fails_iff]
    refine exists_congr fun name => and_congr_right fun _ => ?_
    rw [Ne, Bindings.objection?_eq_none_iff]
    simp only [not_exists, not_and, forall_const, ne_eq]
  · obtain ⟨before, name, after, hsplit, hname, hbefore⟩ := h.exists_first_of_fails hf
    refine ⟨before, name, after, hsplit, fun m hm => ?_, ?_⟩
    · obtain ⟨block, hblock, hlength⟩ := Bindings.objection?_eq_none_iff.mp (hbefore m hm)
      exact ⟨block, hblock, hlength rfl⟩
    · obtain ⟨hnone, rfl⟩ | ⟨block, hblock, hlength, rfl⟩ :=
        Bindings.objection?_strict_eq_some_iff.mp hname
      · exact .inl ⟨hnone, rfl⟩
      · exact .inr ⟨block, hblock, hlength, rfl⟩
  · rw [eval_congr n strict fun name hn => hagree name (mem_variableNames.mpr hn)]

/-- In `rand() + (abs(u) - x)` with only `x` bound, the draws of `rand` are made and then `u` is
missing. With `u` bound it does not matter what `y` is. Three values for one sample of `x + 1` are
all there in the end, unless the evaluation is strict and does not take them. -/
theorem evaluation_reads_after_rand :
    let e : Expr := .binary .add (.call "rand" .rand [])
      (.binary .subtract (.call "abs" .abs [.var "u"]) (.var "x"))
    let b : Bindings := [("x", [1, 2])]
    let b' : Bindings := [("y", [7]), ("u", [-3, 4]), ("x", [1, 2])]
    let b'' : Bindings := [("x", [1, 2]), ("u", [-3, 4])]
    let next : Expr := .binary .add (.var "x") (.const 1)
    let long : Bindings := [("x", [1, 2, 3])]
    (e.Saturated ∧ next.Saturated) ∧
    (∀ g, ∃ error g', (e.eval b 2).Fails g error g' ∧
      error.message = "no binding supplied for variable u") ∧
    (∀ name ∈ e.variableNames, b'.lookup name = b''.lookup name) ∧
    (∀ g, (e.eval b' 2).run.run g = (e.eval b'' 2).run.run g) ∧
    ∀ g, (next.eval long 1).Gives g [2, 2, 3] g ∧
      ∃ error g', (next.eval long 1 true).Fails g error g' ∧
        error.message = "assertion `left == right` failed: " ++
          "binding x has the wrong length\n  left: 3\n right: 1" := by
  intro e b b' b'' next long
  have hs : e.Saturated := by simp [e, Builtin.arity]
  have hs' : next.Saturated := by simp [next]
  have hnames : ∀ name ∈ e.variableNames, name = "u" ∨ name = "x" := by
    simp [e, occurrences, occurrencesAll]
  have hagree : ∀ name ∈ e.variableNames, b'.lookup name = b''.lookup name := by
    intro name hname
    obtain rfl | rfl := hnames name hname <;> decide
  obtain ⟨hfails, -, hcongr⟩ := hs.evaluation_reads 2
  obtain ⟨-, hstrict, -⟩ := hs'.evaluation_reads 1
  refine ⟨⟨hs, hs'⟩, fun g => ?_, hagree, hcongr false b' b'' hagree, fun g => ⟨rfl, ?_⟩⟩
  · obtain ⟨hiff, hfirst⟩ := hfails false b g fun h => absurd h (by decide)
    obtain ⟨error, g', hf⟩ := hiff.mpr ⟨"u", by simp [e, occurrences, occurrencesAll], by decide⟩
    obtain ⟨before, name, after, hsplit, hbefore, hnone, hmessage⟩ := hfirst error g' hf
    refine ⟨error, g', hf, ?_⟩
    have hocc : e.occurrences = ["u", "x"] := by decide
    rw [hocc] at hsplit
    cases before with
    | nil =>
      cases hsplit
      exact hmessage
    | cons m before =>
      -- nothing stands before `u`, which has no value
      obtain rfl : m = "u" := (List.cons.inj hsplit).1.symm
      exact absurd (hbefore "u" List.mem_cons_self) (by decide)
  · obtain ⟨hiff, hfirst⟩ := hstrict long g
    have hlong : ∀ block, long.lookup "x" = some block → block.length ≠ 1 := by
      intro block hblock
      obtain rfl : [1, 2, 3] = block := Option.some.inj hblock
      decide
    obtain ⟨error, g', hf⟩ := hiff.mpr ⟨"x", by simp [next, occurrences], hlong⟩
    obtain ⟨before, name, after, hsplit, -, hkind⟩ := hfirst error g' hf
    refine ⟨error, g', hf, ?_⟩
    obtain rfl : "x" = name := by
      have hmem : name ∈ next.occurrences := by simp [hsplit]
      simpa [next, occurrences, eq_comm] using hmem
    obtain ⟨hnone, -⟩ | ⟨block, hblock, -, hmessage⟩ := hkind
    · exact absurd hnone (by decide)
    · obtain rfl : [1, 2, 3] = block := Option.some.inj hblock
      exact hmessage

end Expr

end FormulaSynth
