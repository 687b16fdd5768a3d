import FormulaSynth.Proofs.Expr.Shape
/-!
# What a tree means at one sample

Evaluation works on whole blocks. Underneath, every sample is computed on its
own: the variables have their values of that sample, operations and functions
work on words, and only the random values need care, as the draws for all samples
of a call are made in one go.

`Expr.sample` is that computation. Its random values are found by counting: the
calls of `rand` evaluated before a call have taken `n` values each, for a block
of `n` samples, and the call itself gives sample `k` the `k`-th value after those.
`Expr.eval_gives` says that evaluation computes `Expr.sample` at every sample,
that it never fails on a supplied tree whose variables are bound, and that it
draws `n` values for every call of `rand` that it reaches.

A tree without randomness has a meaning that no source and no block length
enters, `Expr.value`.
-/

namespace FormulaSynth

/-! ## Computations that end well -/

/-- **A computation gives a value**: started with the source `g` it ends without
failure, and leaves the source `g'`. -/
def Evaluation.Gives {α : Type} (m : Evaluation α) (g : Random) (a : α) (g' : Random) : Prop :=
  m.run.run g = (.ok a, g')

namespace Evaluation

variable {α β : Type} {m : Evaluation α} {g g' g'' : Random} {a : α} {b : β}

theorem gives_pure (a : α) (g : Random) : Gives (pure a) g a g := rfl

/-- A value alone gives that value. -/
theorem Gives.of_pure {a' : α} (h : Gives (pure a) g a' g') : a' = a ∧ g' = g := by
  cases h
  exact ⟨rfl, rfl⟩

/-- One computation after another gives what the second gives. -/
theorem Gives.bind {k : α → Evaluation β} (hm : Gives m g a g') (hk : Gives (k a) g' b g'') :
    Gives (m >>= k) g b g'' := by
  unfold Gives at hm hk ⊢
  rw [ExceptT.run_bind, StateT.run_bind, hm]
  exact hk

/-- What one computation after another gives, the second gives. -/
theorem Gives.of_bind {k : α → Evaluation β} (h : Gives (m >>= k) g b g'') :
    ∃ a g', Gives m g a g' ∧ Gives (k a) g' b g'' := by
  unfold Gives at h ⊢
  rw [ExceptT.run_bind, StateT.run_bind] at h
  cases hm : m.run.run g with
  | mk x g' =>
    rw [hm] at h
    cases x with
    | error e => cases h
    | ok a => exact ⟨a, g', rfl, h⟩

/-- A function of what a computation gives. -/
theorem Gives.map (h : Gives m g a g') (f : α → β) : Gives (f <$> m) g (f a) g' := by
  rw [← bind_pure_comp]
  exact h.bind (gives_pure _ _)

theorem Gives.of_map {f : α → β} (h : Gives (f <$> m) g b g') :
    ∃ a, Gives m g a g' ∧ f a = b := by
  rw [← bind_pure_comp] at h
  obtain ⟨a, g₁, hm, hpure⟩ := h.of_bind
  obtain ⟨rfl, rfl⟩ := hpure.of_pure
  exact ⟨a, hm, rfl⟩

/-- A computation gives one value and leaves one source. -/
theorem Gives.unique {a' : α} (h : Gives m g a g') (h' : Gives m g a' g'') :
    a = a' ∧ g' = g'' := by
  have heq := h.symm.trans h'
  cases heq
  exact ⟨rfl, rfl⟩

/-- Two computations that go on alike from whatever the first step gives are the same. -/
theorem bind_congr_of_gives {k k' : α → Evaluation β}
    (h : ∀ g a g', Gives m g a g' → k a = k' a) : m >>= k = m >>= k' := by
  refine ExceptT.ext (StateT.ext fun g => ?_)
  rw [ExceptT.run_bind, StateT.run_bind, ExceptT.run_bind, StateT.run_bind]
  cases hm : m.run.run g with
  | mk x g' =>
    cases x with
    | error error => rfl
    | ok a =>
      show (k a).run.run g' = (k' a).run.run g'
      rw [h g a g' hm]

/-- Drawing gives the next values and moves past them. -/
theorem gives_draw (n : Nat) (g : Random) :
    Gives (Random.draw n : StateM Random Block) g (g.values n) (g.skip n) := rfl

end Evaluation

/-! ## Bindings -/

namespace Bindings

/-- **A name has a value for each of `n` samples.** -/
def Covers (b : Bindings) (n : Nat) (name : String) : Prop :=
  ∃ block, b.lookup name = some block ∧ block.length = n

/-- The values of the names at sample `k`. A name without a value there is zero. -/
def valuesAt (b : Bindings) (k : Nat) (name : String) : Int32 :=
  ((b.lookup name).getD [])[k]?.getD 0

/-- The block of a name is its values at the samples, one after the other. -/
theorem block_eq_valuesAt {b : Bindings} {name : String} {block : Block}
    (h : b.lookup name = some block) :
    block = (List.range block.length).map fun k => b.valuesAt k name := by
  refine List.ext_getElem (by simp) fun k hk _ => ?_
  simp [valuesAt, h, List.getElem?_eq_getElem hk]

end Bindings

namespace Expr

/-! ## Draws -/

/-- **How many calls of `rand` an evaluation reaches.** Arguments that no function
reads are not evaluated. -/
def draws : Expr → Nat
  | const _ => 0
  | var _ => 0
  | binary _ l r => l.draws + r.draws
  | call _ f args =>
    match f.onWord?, args with
    | none, _ => 1
    | some _, [] => 0
    | some _, a :: _ => a.draws

@[simp] theorem draws_call_rand (name : String) (args : List Expr) :
    (call name .rand args).draws = 1 := by
  rw [draws]
  rfl

theorem draws_call_cons {name : String} {f : Builtin} {w : Int32 → Int32} {a : Expr}
    {rest : List Expr} (hw : f.onWord? = some w) :
    (call name f (a :: rest)).draws = a.draws := by
  simp [draws, hw]

/-- A tree without randomness draws nothing. -/
theorem RandFree.draws_eq_zero {e : Expr} (h : e.RandFree) : e.draws = 0 := by
  induction e using inductionOn with
  | const v => rfl
  | var name => rfl
  | binary op l r hl hr => rw [draws, hl h.1, hr h.2]
  | call name f args ih =>
    obtain ⟨hf, hargs⟩ := allCalls_call.mp h
    obtain ⟨w, hw⟩ := Builtin.exists_onWord? hf
    cases args with
    | nil => simp [draws, hw]
    | cons a rest =>
      rw [draws_call_cons hw]
      exact ih a List.mem_cons_self (hargs a List.mem_cons_self)

/-! ## Samples -/

/-- **The value of a tree at sample `k` of a block of `n`**, where the variables
have the values `env` and the block's first draw is the next of `g`. -/
def sample (env : String → Int32) (n k : Nat) : Expr → Random → Int32
  | const v, _ => v
  | var name, _ => env name
  | binary op l r, g => op.apply (l.sample env n k g) (r.sample env n k (g.skip (n * l.draws)))
  | call _ f args, g =>
    match f.onWord?, args with
    | none, _ => g.upcoming k
    | some _, [] => 0
    | some w, a :: _ => w (a.sample env n k g)

/-- **The value of a tree where the variables have the values `env`.** A call of
`rand` has no value of its own and counts as zero. -/
def value (env : String → Int32) : Expr → Int32
  | const v => v
  | var name => env name
  | binary op l r => op.apply (l.value env) (r.value env)
  | call _ f args =>
    match f.onWord?, args with
    | none, _ => 0
    | some _, [] => 0
    | some w, a :: _ => w (a.value env)

section Calls

variable {env : String → Int32} {n k : Nat} {name : String} {f : Builtin}
  {w : Int32 → Int32} {a : Expr} {args rest : List Expr} {g : Random}

@[simp] theorem sample_call_rand :
    (call name .rand args).sample env n k g = g.upcoming k := by
  rw [sample]
  rfl

theorem sample_call_cons (hw : f.onWord? = some w) :
    (call name f (a :: rest)).sample env n k g = w (a.sample env n k g) := by
  simp [sample, hw]

theorem eval_call_nil (hw : f.onWord? = some w) (b : Bindings) {strict : Bool} :
    (call name f []).eval b n strict = throw (.missingArgument name) := by
  simp [eval, hw]

theorem eval_call_cons (hw : f.onWord? = some w) (b : Bindings) {strict : Bool} :
    (call name f (a :: rest)).eval b n strict = (do
      let x ← a.eval b n strict
      pure (x.map w)) := by
  simp [eval, hw]

theorem value_call_cons (hw : f.onWord? = some w) :
    (call name f (a :: rest)).value env = w (a.value env) := by
  simp [value, hw]

end Calls

/-- The value of a tree depends on its own variables only. -/
theorem value_congr {env env' : String → Int32} {e : Expr}
    (h : ∀ name ∈ e.occurrences, env name = env' name) : e.value env = e.value env' := by
  induction e using inductionOn with
  | const v => rfl
  | var name => exact h name (by simp [occurrences])
  | binary op l r hl hr =>
    rw [value, value, hl fun name hn => h name (List.mem_append_left _ hn),
      hr fun name hn => h name (List.mem_append_right _ hn)]
  | call name f args ih =>
    by_cases hf : f = .rand
    · subst hf
      rfl
    · obtain ⟨w, hw⟩ := Builtin.exists_onWord? hf
      cases args with
      | nil => simp [value, hw]
      | cons a rest =>
        rw [value_call_cons hw, value_call_cons hw,
          ih a List.mem_cons_self fun name hn => h name (List.mem_append_left _ hn)]

/-- Without randomness a sample is the value at the values of the variables. -/
theorem RandFree.sample_eq_value {e : Expr} (h : e.RandFree) (env : String → Int32)
    (n k : Nat) (g : Random) : e.sample env n k g = e.value env := by
  induction e using inductionOn generalizing g with
  | const v => rfl
  | var name => rfl
  | binary op l r hl hr => rw [sample, value, hl h.1, hr h.2]
  | call name f args ih =>
    obtain ⟨hf, hargs⟩ := allCalls_call.mp h
    obtain ⟨w, hw⟩ := Builtin.exists_onWord? hf
    cases args with
    | nil => simp [sample, value, hw]
    | cons a rest =>
      rw [sample_call_cons hw, value_call_cons hw,
        ih a List.mem_cons_self (hargs a List.mem_cons_self)]

/-! ## Trees that evaluate -/

/-- **A tree that an evaluation gets through**: every call it reaches has the argument
its function reads. -/
def Evaluable : Expr → Prop
  | const _ => True
  | var _ => True
  | binary _ l r => l.Evaluable ∧ r.Evaluable
  | call _ f args =>
    match f.onWord?, args with
    | none, _ => True
    | some _, [] => False
    | some _, a :: _ => a.Evaluable

theorem evaluable_call_cons {name : String} {f : Builtin} {w : Int32 → Int32} {a : Expr}
    {rest : List Expr} (hw : f.onWord? = some w) :
    (call name f (a :: rest)).Evaluable ↔ a.Evaluable := by
  simp [Evaluable, hw]

/-- A call that evaluates is one of `rand`, or has an argument that evaluates. -/
theorem Evaluable.call_cases {name : String} {f : Builtin} {args : List Expr}
    (h : (call name f args).Evaluable) :
    f = .rand ∨ ∃ w a rest, f.onWord? = some w ∧ args = a :: rest ∧ a.Evaluable := by
  by_cases hf : f = .rand
  · exact Or.inl hf
  · obtain ⟨w, hw⟩ := Builtin.exists_onWord? hf
    cases args with
    | nil => simp [Evaluable, hw] at h
    | cons a rest => exact Or.inr ⟨w, a, rest, hw, rfl, (evaluable_call_cons hw).mp h⟩

/-- A supplied tree evaluates. -/
theorem Supplied.evaluable {e : Expr} (h : e.Supplied) : e.Evaluable := by
  induction e using inductionOn with
  | const v => trivial
  | var name => trivial
  | binary op l r hl hr => exact ⟨hl h.1, hr h.2⟩
  | call name f args ih =>
    obtain rfl | ⟨w, a, rest, hw, rfl⟩ := h.call_cases
    · trivial
    · rw [evaluable_call_cons hw]
      exact ih a List.mem_cons_self ((allCalls_call.mp h).2 a List.mem_cons_self)

/-! ## Evaluation is sample by sample -/

/-- **Evaluation computes every sample on its own**: on a tree that evaluates, with its
variables bound for `n` samples, it gives `n` values, the `k`-th of them the sample `k`
of the tree, and draws `n` values for each call of `rand` it reaches. -/
theorem Evaluable.eval_gives {b : Bindings} {n : Nat} {e : Expr} (hs : e.Evaluable)
    (hb : ∀ name ∈ e.occurrences, b.Covers n name) (g : Random) :
    (e.eval b n).Gives g ((List.range n).map fun k => e.sample (b.valuesAt k) n k g)
      (g.skip (n * e.draws)) := by
  induction e using inductionOn generalizing g with
  | const v =>
    have hblock : (List.range n).map (fun k => (const v).sample (b.valuesAt k) n k g)
        = List.replicate n v := by
      simp [sample, List.map_const']
    rw [hblock]
    exact Evaluation.gives_pure _ g
  | var name =>
    obtain ⟨block, hl, rfl⟩ := hb name (by simp [occurrences])
    have hblock := Bindings.block_eq_valuesAt hl
    rw [eval_var_of_lookup hl]
    simp only [sample]
    rw [← hblock]
    exact Evaluation.gives_pure _ g
  | binary op l r hl hr =>
    have hbl : ∀ name ∈ l.occurrences, b.Covers n name :=
      fun name h => hb name (List.mem_append_left _ h)
    have hbr : ∀ name ∈ r.occurrences, b.Covers n name :=
      fun name h => hb name (List.mem_append_right _ h)
    -- the right operand starts from the source that the left one leaves
    rw [eval, draws, Nat.mul_add, ← Random.skip_skip]
    refine (hl hs.1 hbl g).bind ((hr hs.2 hbr (g.skip (n * l.draws))).bind ?_)
    have hzip : (List.range n).map (fun k => (binary op l r).sample (b.valuesAt k) n k g)
        = combine op.apply
            ((List.range n).map fun k => l.sample (b.valuesAt k) n k g)
            ((List.range n).map fun k => r.sample (b.valuesAt k) n k (g.skip (n * l.draws))) :=
      (combine_map op.apply _ _ _).symm
    rw [hzip]
    exact Evaluation.gives_pure _ _
  | call name f args ih =>
    obtain rfl | ⟨w, a, rest, hw, rfl, hsa⟩ := hs.call_cases
    · simp only [sample_call_rand, draws_call_rand, Nat.mul_one]
      exact Evaluation.gives_draw n g
    · have hba : ∀ name ∈ a.occurrences, b.Covers n name :=
        fun name h => hb name (List.mem_append_left _ h)
      have ha := ih a List.mem_cons_self hsa hba g
      simp only [eval_call_cons hw, sample_call_cons hw, draws_call_cons hw]
      refine ha.bind ?_
      rw [List.map_map]
      exact Evaluation.gives_pure _ _

/-- Evaluation computes every sample on its own on a supplied tree. -/
theorem eval_gives {b : Bindings} {n : Nat} {e : Expr} (hs : e.Supplied)
    (hb : ∀ name ∈ e.occurrences, b.Covers n name) (g : Random) :
    (e.eval b n).Gives g ((List.range n).map fun k => e.sample (b.valuesAt k) n k g)
      (g.skip (n * e.draws)) :=
  hs.evaluable.eval_gives hb g

/-- **Only a tree that evaluates gives anything.** -/
theorem evaluable_of_gives {b : Bindings} {n : Nat} {e : Expr} {g g' : Random} {block : Block}
    (h : (e.eval b n).Gives g block g') : e.Evaluable := by
  induction e using inductionOn generalizing g g' block with
  | const v => trivial
  | var name => trivial
  | binary op l r hl hr =>
    rw [eval] at h
    obtain ⟨x, g₁, hx, hrest⟩ := h.of_bind
    obtain ⟨y, g₂, hy, -⟩ := hrest.of_bind
    exact ⟨hl hx, hr hy⟩
  | call name f args ih =>
    by_cases hf : f = .rand
    · subst hf
      trivial
    · obtain ⟨w, hw⟩ := Builtin.exists_onWord? hf
      cases args with
      | nil =>
        rw [eval_call_nil hw] at h
        cases h
      | cons a rest =>
        rw [eval_call_cons hw] at h
        obtain ⟨x, g₁, hx, -⟩ := h.of_bind
        rw [evaluable_call_cons hw]
        exact ih a List.mem_cons_self hx

/-! ## Evaluation without randomness -/

/-- **The values of a tree over a block of `n` samples**, for a tree without
randomness. -/
def values (b : Bindings) (n : Nat) (e : Expr) : Block :=
  (List.range n).map fun k => e.value (b.valuesAt k)

@[simp] theorem length_values (b : Bindings) (n : Nat) (e : Expr) :
    (e.values b n).length = n := by
  rw [values, List.length_map, List.length_range]

theorem values_const (b : Bindings) (n : Nat) (v : Int32) :
    (const v).values b n = List.replicate n v := by
  simp [values, value, List.map_const']

theorem values_var {b : Bindings} {n : Nat} {name : String} {block : Block}
    (h : b.lookup name = some block) (hn : block.length = n) :
    (var name).values b n = block := by
  rw [Bindings.block_eq_valuesAt h, hn]
  rfl

theorem values_binary (b : Bindings) (n : Nat) (op : Operation) (l r : Expr) :
    (binary op l r).values b n = combine op.apply (l.values b n) (r.values b n) :=
  (combine_map op.apply _ _ _).symm

theorem values_call_cons {f : Builtin} {w : Int32 → Int32} (hw : f.onWord? = some w)
    (b : Bindings) (n : Nat) (name : String) (a : Expr) (rest : List Expr) :
    (call name f (a :: rest)).values b n = (a.values b n).map w := by
  simp only [values, value_call_cons hw, List.map_map]
  rfl

/-- **A tree without randomness evaluates to its values**, and leaves the source as it
is. -/
theorem RandFree.gives_of_evaluable {b : Bindings} {n : Nat} {e : Expr} (hr : e.RandFree)
    (hs : e.Evaluable) (hb : ∀ name ∈ e.occurrences, b.Covers n name) (g : Random) :
    (e.eval b n).Gives g (e.values b n) g := by
  have h := hs.eval_gives hb g
  simp only [hr.sample_eq_value, hr.draws_eq_zero, Nat.mul_zero, Random.skip_zero] at h
  exact h

/-- A supplied tree without randomness evaluates to its values. -/
theorem RandFree.eval_gives {b : Bindings} {n : Nat} {e : Expr} (hr : e.RandFree)
    (hs : e.Supplied) (hb : ∀ name ∈ e.occurrences, b.Covers n name) (g : Random) :
    (e.eval b n).Gives g (e.values b n) g :=
  hr.gives_of_evaluable hs.evaluable hb g

/-- **If a tree without randomness evaluates at all, it evaluates to its values**,
also if calls in it lack arguments. -/
theorem RandFree.values_of_gives {b : Bindings} {n : Nat} {e : Expr} {g g' : Random}
    {block : Block} (hr : e.RandFree) (hb : ∀ name ∈ e.occurrences, b.Covers n name)
    (h : (e.eval b n).Gives g block g') : block = e.values b n ∧ g' = g := by
  induction e using inductionOn generalizing g g' block with
  | const v =>
    cases h
    exact ⟨(values_const b n v).symm, rfl⟩
  | var name =>
    obtain ⟨block', hl, hn⟩ := hb name (by simp [occurrences])
    rw [eval_var_of_lookup hl] at h
    cases h
    exact ⟨(values_var hl hn).symm, rfl⟩
  | binary op l r hl hr' =>
    rw [eval] at h
    obtain ⟨x, g₁, hx, hrest⟩ := h.of_bind
    obtain ⟨y, g₂, hy, hpure⟩ := hrest.of_bind
    obtain ⟨rfl, rfl⟩ := hl hr.1 (fun name hn => hb name (List.mem_append_left _ hn)) hx
    obtain ⟨rfl, rfl⟩ := hr' hr.2 (fun name hn => hb name (List.mem_append_right _ hn)) hy
    obtain ⟨rfl, rfl⟩ := hpure.of_pure
    exact ⟨(values_binary b n op l r).symm, rfl⟩
  | call name f args ih =>
    obtain ⟨hf, hargs⟩ := allCalls_call.mp hr
    obtain ⟨w, hw⟩ := Builtin.exists_onWord? hf
    cases args with
    | nil =>
      -- a call without its argument does not evaluate
      rw [eval_call_nil hw] at h
      cases h
    | cons a rest =>
      rw [eval_call_cons hw] at h
      obtain ⟨x, g₁, hx, hpure⟩ := h.of_bind
      obtain ⟨rfl, rfl⟩ := ih a List.mem_cons_self (hargs a List.mem_cons_self)
        (fun name hn => hb name (List.mem_append_left _ hn)) hx
      obtain ⟨rfl, rfl⟩ := hpure.of_pure
      exact ⟨(values_call_cons hw b n name a rest).symm, rfl⟩

end Expr

end FormulaSynth
