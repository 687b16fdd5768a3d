import FormulaSynth.Proofs.Expr.Folding
import Mathlib.Data.Fintype.EquivFin
import Mathlib.Data.Set.Finite.Basic
/-!
# What a tree draws

A tree whose calls have as many arguments as they should draws the same number of random
values whatever its variables are bound to: one for each of its calls of `rand` and each
sample of the block (`Expr.Saturated.source_eq_of_gives`).

Which of the values goes where is said by putting something else in the place of the calls,
`Expr.replaceRand`: the first call in the order of the text is replaced by the first of a
sequence of trees, the next call by the next. If these are variables, each bound to the values
that the call it replaces draws for the block, then what is left is a tree without randomness
that has the same values (`Expr.accounts_for_draws`). If they are constants, each the one value
that folding draws for the call, then what is left folds to the same tree
(`Expr.Saturated.exists_fold_gives`).
-/

namespace FormulaSynth

namespace Expr

/-! ## The calls of `rand` in a tree -/

mutual

/-- **How many calls of `rand` a tree has.** -/
def randCalls : Expr → Nat
  | const _ => 0
  | var _ => 0
  | binary _ l r => l.randCalls + r.randCalls
  | call _ f args => (if f = .rand then 1 else 0) + randCallsAll args

/-- How many calls of `rand` several trees have together. -/
def randCallsAll : List Expr → Nat
  | [] => 0
  | e :: rest => e.randCalls + randCallsAll rest

end

mutual

/-- **A tree with its calls of `rand` replaced**, in the order of the text, left operands before
right ones: the first call by `slot i`, the next by `slot (i + 1)`, and so on. -/
def replaceRand (slot : Nat → Expr) (i : Nat) : Expr → Expr
  | const v => const v
  | var name => var name
  | binary op l r => binary op (l.replaceRand slot i) (r.replaceRand slot (i + l.randCalls))
  | call name f args => if f = .rand then slot i else call name f (replaceRandAll slot i args)

/-- Several trees with their calls of `rand` replaced, one tree after the other. -/
def replaceRandAll (slot : Nat → Expr) (i : Nat) : List Expr → List Expr
  | [] => []
  | e :: rest => e.replaceRand slot i :: replaceRandAll slot (i + e.randCalls) rest

end

section Calls

variable {name : String} {f : Builtin} {w : Int32 → Int32} {a : Expr} {slot : Nat → Expr} {i : Nat}

@[simp] theorem randCalls_call_rand : (call name .rand []).randCalls = 1 := rfl

theorem randCalls_call_word (hw : f.onWord? = some w) :
    (call name f [a]).randCalls = a.randCalls := by
  simp [randCalls, randCallsAll, Builtin.ne_rand_of_onWord? hw]

@[simp] theorem replaceRand_call_rand : (call name .rand []).replaceRand slot i = slot i := rfl

theorem replaceRand_call_word (hw : f.onWord? = some w) :
    (call name f [a]).replaceRand slot i = call name f [a.replaceRand slot i] := by
  simp [replaceRand, replaceRandAll, Builtin.ne_rand_of_onWord? hw]

end Calls

/-! ## How much is drawn -/

/-- **An evaluation reaches every call of `rand`** of a saturated tree, as no function is given
more arguments than it reads. -/
theorem Saturated.draws_eq_randCalls {e : Expr} (h : e.Saturated) : e.draws = e.randCalls := by
  induction h using Saturated.inductionOn with
  | const v => rfl
  | var name => rfl
  | binary op l r _ _ hl hr => rw [draws, randCalls, hl, hr]
  | rand name => exact draws_call_rand name []
  | word name f a w hw _ _ ih => rw [draws_call_cons hw, randCalls_call_word hw, ih]

/-- **How far an evaluation moves the source on** is a matter of the tree and the length of the
block, and of nothing that a variable is bound to. -/
theorem Saturated.source_eq_of_gives {b : Bindings} {n : Nat} {e : Expr} {g g' : Random}
    {block : Block} (h : e.Saturated) (hgives : (e.eval b n).Gives g block g') :
    g' = g.skip (e.randCalls * n) := by
  induction h using Saturated.inductionOn generalizing g g' block with
  | const v =>
    obtain ⟨-, rfl⟩ := hgives.of_pure
    rw [randCalls, Nat.zero_mul, Random.skip_zero]
  | var name =>
    cases hb : b.lookup name with
    | none =>
      rw [eval_var_of_unbound hb] at hgives
      cases hgives
    | some values =>
      rw [eval_var_of_lookup hb] at hgives
      obtain ⟨-, rfl⟩ := hgives.of_pure
      rw [randCalls, Nat.zero_mul, Random.skip_zero]
  | binary op l r _ _ hl hr =>
    rw [eval] at hgives
    obtain ⟨x, g₁, hx, hrest⟩ := hgives.of_bind
    obtain ⟨y, g₂, hy, hpure⟩ := hrest.of_bind
    obtain rfl := hl hx
    obtain rfl := hr hy
    obtain ⟨-, rfl⟩ := hpure.of_pure
    rw [Random.skip_skip, randCalls, Nat.add_mul]
  | rand name =>
    cases hgives
    rw [randCalls_call_rand, Nat.one_mul]
  | word name f a w hw _ _ ih =>
    rw [eval_call_cons hw] at hgives
    obtain ⟨x, g₁, hx, hpure⟩ := hgives.of_bind
    obtain ⟨-, rfl⟩ := hpure.of_pure
    rw [randCalls_call_word hw]
    exact ih hx

/-! ## What is drawn -/

/-- With the calls of `rand` replaced by trees without randomness there is none left. -/
theorem Saturated.randFree_replaceRand {e : Expr} (h : e.Saturated) {slot : Nat → Expr}
    (hslot : ∀ i, (slot i).RandFree) (i : Nat) : (e.replaceRand slot i).RandFree := by
  induction h using Saturated.inductionOn generalizing i with
  | const v => trivial
  | var name => trivial
  | binary op l r _ _ hl hr => exact ⟨hl i, hr (i + l.randCalls)⟩
  | rand name => exact hslot i
  | word name f a w hw _ _ ih =>
    rw [replaceRand_call_word hw]
    exact allCalls_call.mpr
      ⟨Builtin.ne_rand_of_onWord? hw, List.forall_mem_singleton.mpr (ih i)⟩

/-- Nor is any function left without the argument it reads. -/
theorem Saturated.evaluable_replaceRand {e : Expr} (h : e.Saturated) {slot : Nat → Expr}
    (hslot : ∀ i, (slot i).Evaluable) (i : Nat) : (e.replaceRand slot i).Evaluable := by
  induction h using Saturated.inductionOn generalizing i with
  | const v => trivial
  | var name => trivial
  | binary op l r _ _ hl hr => exact ⟨hl i, hr (i + l.randCalls)⟩
  | rand name => exact hslot i
  | word name f a w hw _ _ ih =>
    rw [replaceRand_call_word hw, evaluable_call_cons hw]
    exact ih i

/-- **A sample is a value without randomness**: that of the tree where each call of `rand` is
replaced by a tree that has the value drawn for the call and the sample. The calls before the
tree have drawn `n * i` values. -/
theorem Saturated.value_replaceRand {e : Expr} (h : e.Saturated) {env env' : String → Int32}
    {slot : Nat → Expr} {n k i : Nat} {g : Random}
    (henv : ∀ name ∈ e.occurrences, env' name = env name)
    (hslot : ∀ j < e.randCalls, (slot (i + j)).value env' = g.upcoming (n * (i + j) + k)) :
    (e.replaceRand slot i).value env' = e.sample env n k (g.skip (n * i)) := by
  induction h using Saturated.inductionOn generalizing i with
  | const v => rfl
  | var name => exact henv name List.mem_cons_self
  | binary op l r hsl _ hl hr =>
    have hleft := hl (fun name hn => henv name (List.mem_append_left _ hn))
      fun j hj => hslot j (Nat.lt_add_right _ hj)
    have hright := hr (fun name hn => henv name (List.mem_append_right _ hn))
      fun j hj => by
        rw [Nat.add_assoc]
        exact hslot (l.randCalls + j) (Nat.add_lt_add_left hj _)
    rw [replaceRand, value, hleft, hright, sample, Random.skip_skip, hsl.draws_eq_randCalls,
      Nat.mul_add]
  | rand name =>
    rw [sample_call_rand, replaceRand_call_rand, Random.upcoming_skip]
    exact hslot 0 Nat.one_pos
  | word name f a w hw _ _ ih =>
    rw [randCalls_call_word hw] at hslot
    rw [replaceRand_call_word hw, value_call_cons hw, sample_call_cons hw,
      ih (fun name hn => henv name (List.mem_append_left _ hn)) hslot]

/-! ## Variables in place of the calls -/

/-- A tree with variables in the place of its calls of `rand`. -/
abbrev withVariables (e : Expr) (names : Nat → String) : Expr :=
  e.replaceRand (fun i => var (names i)) 0

/-- **Bindings that have what a tree draws**, from the source `g` and for `n` samples: `b'` binds
the variables of the tree as `b` does, and binds `names i` to the `n` values that are drawn for
the `i`-th call of `rand`, those from `i * n` on. -/
structure DrawnIn (e : Expr) (b : Bindings) (n : Nat) (g : Random) (names : Nat → String)
    (b' : Bindings) : Prop where
  keeps : ∀ name ∈ e.occurrences, b'.lookup name = b.lookup name
  draws : ∀ i < e.randCalls,
    b'.lookup (names i) = some ((List.range n).map fun k => g.upcoming (i * n + k))

/-- Different names bound one after the other are each bound to what they were given. -/
theorem lookup_append_of_mem {names : Nat → String} (hnames : Function.Injective names)
    (blocks : Nat → Block) (b : Bindings) {i : Nat} {is : List Nat} (hi : i ∈ is) :
    (is.map (fun j => (names j, blocks j)) ++ b).lookup (names i) = some (blocks i) := by
  induction is with
  | nil => cases hi
  | cons j is ih =>
    rw [List.map_cons, List.cons_append, List.lookup_cons]
    by_cases hij : i = j
    · rw [hij, beq_self_eq_true]
    · rw [beq_false_of_ne fun h => hij (hnames h)]
      exact ih ((List.mem_cons.mp hi).resolve_left hij)

/-- Other names are bound to what they were. -/
theorem lookup_append_of_not_mem {names : Nat → String} (blocks : Nat → Block) (b : Bindings)
    {name : String} (hname : ∀ i, name ≠ names i) (is : List Nat) :
    (is.map (fun j => (names j, blocks j)) ++ b).lookup name = b.lookup name := by
  induction is with
  | nil => rfl
  | cons j is ih =>
    rw [List.map_cons, List.cons_append, List.lookup_cons, beq_false_of_ne (hname j)]
    exact ih

/-- **There are always names left for what a tree draws.** -/
theorem exists_drawnIn (e : Expr) (b : Bindings) (n : Nat) (g : Random) :
    ∃ names b', e.DrawnIn b n g names b' := by
  have hfree : {name | name ∈ e.occurrences}ᶜ.Infinite := e.occurrences.finite_toSet.infinite_compl
  let names := hfree.natEmbedding
  have hinjective : Function.Injective fun i => (names i).1 :=
    fun i j h => names.injective (Subtype.ext h)
  let blocks (i : Nat) : Block := (List.range n).map fun k => g.upcoming (i * n + k)
  refine ⟨fun i => (names i).1,
    (List.range e.randCalls).map (fun i => ((names i).1, blocks i)) ++ b,
    fun name hname => ?_, fun i hi => ?_⟩
  · exact lookup_append_of_not_mem blocks b
      (fun i h => (names i).2 (by rw [← h]; exact hname)) (List.range e.randCalls)
  · exact lookup_append_of_mem hinjective blocks b (List.mem_range.mpr hi)

section DrawnIn

variable {e : Expr} {b b' : Bindings} {n : Nat} {g : Random} {names : Nat → String}

/-- The variables of a tree are those it had and those put in place of its calls of `rand`. -/
theorem Saturated.mem_occurrences_replaceRand (h : e.Saturated) {i : Nat} {name : String}
    (hn : name ∈ (e.replaceRand (fun j => var (names j)) i).occurrences) :
    name ∈ e.occurrences ∨ ∃ j < e.randCalls, name = names (i + j) := by
  induction h using Saturated.inductionOn generalizing i with
  | const v => exact Or.inl hn
  | var name => exact Or.inl hn
  | binary op l r _ _ hl hr =>
    obtain hn | hn := List.mem_append.mp hn
    · obtain hmem | ⟨j, hj, rfl⟩ := hl hn
      · exact Or.inl (List.mem_append_left _ hmem)
      · exact Or.inr ⟨j, Nat.lt_add_right _ hj, rfl⟩
    · obtain hmem | ⟨j, hj, rfl⟩ := hr hn
      · exact Or.inl (List.mem_append_right _ hmem)
      · exact Or.inr ⟨l.randCalls + j, Nat.add_lt_add_left hj _, by rw [Nat.add_assoc]⟩
  | rand name => exact Or.inr ⟨0, Nat.one_pos, List.mem_singleton.mp hn⟩
  | word name f a w hw _ _ ih =>
    rw [replaceRand_call_word hw] at hn
    simp only [occurrences, occurrencesAll, List.append_nil] at hn ⊢
    rw [randCalls_call_word hw]
    exact ih hn

/-- The variables of the tree and those put in place of its calls are bound for the block. -/
theorem DrawnIn.covers (h : e.DrawnIn b n g names b') (hs : e.Saturated)
    (hb : ∀ name ∈ e.occurrences, b.Covers n name) :
    ∀ name ∈ (e.withVariables names).occurrences, b'.Covers n name := by
  intro name hname
  obtain hmem | ⟨j, hj, rfl⟩ := hs.mem_occurrences_replaceRand hname
  · obtain ⟨block, hblock, hlength⟩ := hb name hmem
    exact ⟨block, (h.keeps name hmem).trans hblock, hlength⟩
  · rw [Nat.zero_add]
    exact ⟨_, h.draws j hj, by rw [List.length_map, List.length_range]⟩

/-- Where a tree has drawn values, the tree with variables in place of its calls has the values
of these variables. -/
theorem DrawnIn.values_eq (h : e.DrawnIn b n g names b') (hs : e.Saturated) :
    (e.withVariables names).values b' n =
      (List.range n).map fun k => e.sample (b.valuesAt k) n k g := by
  refine List.map_congr_left fun k hk => ?_
  have hvariables : ∀ name ∈ e.occurrences, b'.valuesAt k name = b.valuesAt k name :=
    fun name hname => by rw [Bindings.valuesAt, Bindings.valuesAt, h.keeps name hname]
  have hdraws : ∀ j < e.randCalls,
      (var (names (0 + j))).value (b'.valuesAt k) = g.upcoming (n * (0 + j) + k) := by
    intro j hj
    rw [Nat.zero_add, Nat.mul_comm, value, Bindings.valuesAt, h.draws j hj]
    simp [List.mem_range.mp hk]
  rw [hs.value_replaceRand hvariables hdraws, Nat.mul_zero, Random.skip_zero]

end DrawnIn

/-- **Random draws are accounted for.** A tree whose calls have as many arguments as their
functions accept, with its variables bound for `n` samples, draws `n` values for each of its
calls of `rand`. It evaluates to what the tree without randomness evaluates to that has variables
in place of the calls, the `i`-th call in the order of the text being replaced by one that is
bound to the `n` values from the upcoming value `i * n` on; and names for these variables can be
found. What the variables of the tree are bound to has no part in how many values are drawn. -/
theorem accounts_for_draws {e : Expr} (h : e.Saturated) (n : Nat) :
    (∀ (b : Bindings) (g : Random), (∀ name ∈ e.occurrences, b.Covers n name) →
      (∃ names b', e.DrawnIn b n g names b') ∧
      ∀ names b', e.DrawnIn b n g names b' →
        (e.withVariables names).RandFree ∧
        ∃ block, block.length = n ∧
          (e.eval b n).Gives g block (g.skip (e.randCalls * n)) ∧
          ∀ g', ((e.withVariables names).eval b' n).Gives g' block g') ∧
    ∀ (b : Bindings) (g g' : Random) (block : Block), (e.eval b n).Gives g block g' →
      g' = g.skip (e.randCalls * n) := by
  refine ⟨fun b g hb => ⟨e.exists_drawnIn b n g, fun names b' hdrawn => ?_⟩,
    fun b g g' block hgives => h.source_eq_of_gives hgives⟩
  have hvariable : ∀ i, (var (names i)).RandFree ∧ (var (names i)).Evaluable :=
    fun _ => ⟨trivial, trivial⟩
  have hfree : (e.withVariables names).RandFree :=
    h.randFree_replaceRand (fun i => (hvariable i).1) 0
  have hevaluable : (e.withVariables names).Evaluable :=
    h.evaluable_replaceRand (fun i => (hvariable i).2) 0
  have heval := eval_gives h.supplied hb g
  rw [h.draws_eq_randCalls, Nat.mul_comm, ← hdrawn.values_eq h] at heval
  exact ⟨hfree, _, length_values b' n _, heval,
    hfree.gives_of_evaluable hevaluable (hdrawn.covers h hb)⟩

/-- The draws of an argument come before those of the operand behind it, and the second sample's
before those of the next call. -/
theorem accounts_for_draws_hash :
    let e : Expr := .binary .subtract (.call "srand" .srand [.call "rand" .rand []])
      (.binary .multiply (.call "rand" .rand []) (.var "t"))
    let replaced : Expr := .binary .subtract (.call "srand" .srand [.var "first"])
      (.binary .multiply (.var "second") (.var "t"))
    let g := Random.ofSeed 0
    let b' : Bindings := [("first", [g.upcoming 0, g.upcoming 1]),
      ("second", [g.upcoming 2, g.upcoming 3]), ("t", [5, -6])]
    ∃ block : Block, block.length = 2 ∧ (e.eval [("t", [5, -6])] 2).Gives g block (g.skip 4) ∧
      (replaced.eval b' 2).Gives g block g := by
  intro e replaced g b'
  have hs : e.Saturated := by simp [e, Builtin.arity]
  have hcovers : ∀ name ∈ e.occurrences, Bindings.Covers [("t", [5, -6])] 2 name := by
    intro name hname
    obtain rfl : name = "t" := by simpa [e, occurrences, occurrencesAll] using hname
    exact ⟨[5, -6], rfl, rfl⟩
  let names : Nat → String := fun i => if i = 0 then "first" else "second"
  have hdrawn : e.DrawnIn [("t", [5, -6])] 2 g names b' := by
    refine ⟨fun name hname => ?_, fun i hi => ?_⟩
    · obtain rfl : name = "t" := by simpa [e, occurrences, occurrencesAll] using hname
      rfl
    · have hcases : i = 0 ∨ i = 1 := by
        have hcount : e.randCalls = 2 := rfl
        omega
      obtain rfl | rfl := hcases <;> rfl
  obtain ⟨-, block, hlength, heval, hreplaced⟩ :=
    ((accounts_for_draws hs 2).1 _ g hcovers).2 names b' hdrawn
  exact ⟨block, hlength, heval, hreplaced g⟩

/-! ## Constants in place of the calls -/

/-- **Folding draws the values one by one**: a saturated tree, folded from the source `i` draws
ahead, folds to the tree that it folds to when each of its calls of `rand` has been replaced by
the one value it draws, the first by the value `i` draws ahead. -/
theorem Saturated.exists_fold_gives {e : Expr} (h : e.Saturated) (g : Random) (i : Nat) :
    ∃ e', e.fold.Gives (g.skip i) e' (g.skip (i + e.randCalls)) ∧
      ∀ g', ((e.replaceRand (fun j => const (g.upcoming j)) i).fold).Gives g' e' g' := by
  induction h using Saturated.inductionOn generalizing i with
  | const v => exact ⟨const v, Evaluation.gives_pure _ _, fun g' => Evaluation.gives_pure _ g'⟩
  | var name => exact ⟨var name, Evaluation.gives_pure _ _, fun g' => Evaluation.gives_pure _ g'⟩
  | binary op l r _ _ hl hr =>
    obtain ⟨l', hl', hleft⟩ := hl i
    obtain ⟨r', hr', hright⟩ := hr (i + l.randCalls)
    refine ⟨foldBinary op l' r', ?_, fun g' => ?_⟩
    · rw [fold, randCalls, ← Nat.add_assoc]
      exact hl'.bind (hr'.bind (Evaluation.gives_pure _ _))
    · rw [replaceRand, fold]
      exact (hleft g').bind ((hright g').bind (Evaluation.gives_pure _ g'))
  | rand name =>
    refine ⟨const (g.upcoming i), ?_, fun g' => Evaluation.gives_pure _ g'⟩
    have hcall := foldCall_rand_gives name (g.skip i)
    rw [Random.upcoming_skip, Random.skip_skip] at hcall
    exact hcall
  | word name f a w hw _ _ ih =>
    obtain ⟨a', ha', harg⟩ := ih i
    obtain ⟨e', he'⟩ := exists_foldCall_word_gives name hw a'
    refine ⟨e', ?_, fun g' => ?_⟩
    · rw [randCalls_call_word hw]
      exact (foldAll_singleton_gives ha').bind (he' _)
    · rw [replaceRand_call_word hw]
      exact (foldAll_singleton_gives (harg g')).bind (he' g')

end Expr

end FormulaSynth
