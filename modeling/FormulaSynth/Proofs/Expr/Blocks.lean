import FormulaSynth.Proofs.Expr.Waves
/-!
# Blocks are evaluated sample by sample

A tree without randomness is evaluated for all samples of a block at once, and no
sample has anything to do with another: the value at a sample is the value of the tree
where its variables have their values of that sample (`Expr.evaluates_samples`, first
part). So it does not matter either how a stretch of time is cut into blocks, as the
blocks of a stretch in two parts are those of the parts, one behind the other (second
part).

What the value at a sample is, is said in the integers: `Expr.scalar` gives each operation
and each function its exact value, reduces it to a word and goes on. Nothing there is a
computation with words, so it is also said what the functions make of their argument: a
level of a table at a remainder, a magnitude, and the hash as sums, products and shifts.

Evaluation is known to give `Expr.values`. What is left to do is to say of a list of
values what it has at each sample, and that variables may be bound in two parts.
-/

namespace FormulaSynth

/-! ## The values of functions on integers -/

/-- An integer reduced to 32 bits with a sign. -/
def wrapped (a : Int) : Int :=
  a.bmod (2 ^ 32)

theorem wrapped_toInt (x : Int32) : wrapped x.toInt = x.toInt :=
  Int32.toInt_bmod x

/-- The level of a wave at any integer, which is taken back into the period. -/
def Wavetable.levelAt (w : Wavetable) (phase : Int) : Int :=
  (w.levels.get ⟨(phase % 256).toNat, by omega⟩).toInt

/-- The level that is looked up so far ahead is that at the exact sum. -/
theorem Wavetable.toInt_level_add (w : Wavetable) (x ahead : Int32) :
    (w.level (x + ahead)).toInt = w.levelAt (x.toInt + ahead.toInt) := by
  unfold level levelAt index
  simp only [toInt_add_emod]

namespace Builtin

/-- **The hash in the integers**, reduced after every step. -/
def mix (a : Int) : Int :=
  let p := wrapped (wrapped (a + 3463) * 2971)
  let m := wrapped (p.xor (wrapped (p * 2 ^ 13)))
  let r := wrapped (m.xor (m.fdiv (2 ^ 17)))
  wrapped (r.xor (wrapped (r * 2 ^ 5)))

/-- **The value of a function on an integer**: a level of a table, a magnitude or the hash.
A call of `rand` has none. -/
def onInteger (f : Builtin) (a : Int) : Int :=
  match f with
  | sin => Wavetable.sine.levelAt a
  | cos => Wavetable.sine.levelAt (a + 64)
  | tri => Wavetable.triangle.levelAt a
  | abs => a.natAbs
  | srand => mix a
  | rand => 0

/-- The lowest word is the one whose magnitude is reduced. -/
theorem toInt_absolute (x : Int32) : (absolute x).toInt = wrapped x.toInt.natAbs := by
  unfold absolute
  split
  · next hneg =>
    have hlt : x.toInt < 0 := Int32.lt_iff_toInt_lt.mp hneg
    rw [Int32.toInt_neg, wrapped]
    congr 1
    omega
  · next hnonneg =>
    have hle : 0 ≤ x.toInt := Int.not_lt.mp fun h => hnonneg (Int32.lt_iff_toInt_lt.mpr h)
    rw [Int.natAbs_of_nonneg hle, wrapped_toInt]

/-- **The hash takes its steps in the integers.** -/
theorem toInt_scramble (x : Int32) : (scramble x).toInt = mix x.toInt := by
  have hxor : ∀ y z : Int32, (y ^^^ z).toInt = wrapped (y.toInt.xor z.toInt) :=
    Operation.toInt_apply .xor
  have haffine : ((x + 3463) * 2971).toInt = wrapped (wrapped (x.toInt + 3463) * 2971) := by
    rw [Int32.toInt_mul, Int32.toInt_add]
    rfl
  have hleft : ∀ (y : Int32) (a : Nat), a < 32 →
      (y ^^^ (y <<< Int32.ofNat a)).toInt = wrapped (y.toInt.xor (wrapped (y.toInt * 2 ^ a))) := by
    intro y a ha
    rw [hxor, toInt_shiftLeft_ofNat y ha]
    rfl
  have hright : ∀ (y : Int32) (a : Nat), a < 32 →
      (y ^^^ (y >>> Int32.ofNat a)).toInt = wrapped (y.toInt.xor (y.toInt.fdiv (2 ^ a))) := by
    intro y a ha
    rw [hxor, toInt_shiftRight_ofNat y ha]
  simp only [mix]
  rw [← haffine, ← hleft _ 13 (by decide), ← hright _ 17 (by decide), ← hleft _ 5 (by decide)]
  rfl

/-- **A function has its value on integers, reduced to a word.** -/
theorem toInt_of_onWord? {f : Builtin} {w : Int32 → Int32} (h : f.onWord? = some w) (x : Int32) :
    (w x).toInt = wrapped (f.onInteger x.toInt) := by
  have hlevel : ∀ (v : Wavetable) (ahead : Int32),
      (v.level (x + ahead)).toInt = wrapped (v.levelAt (x.toInt + ahead.toInt)) := by
    intro v ahead
    rw [← v.toInt_level_add, wrapped_toInt]
  cases f with
  | sin =>
    cases h
    simpa only [onInteger, Int32.add_zero, Int32.toInt_zero, Int.add_zero] using hlevel .sine 0
  | cos =>
    cases h
    exact hlevel .sine 64
  | tri =>
    obtain rfl := Option.some.inj h
    simpa only [onInteger, Int32.add_zero, Int32.toInt_zero, Int.add_zero] using hlevel .triangle 0
  | abs =>
    cases h
    exact toInt_absolute x
  | srand =>
    cases h
    rw [toInt_scramble, onInteger, ← toInt_scramble, wrapped_toInt]
  | rand => cases h

end Builtin

namespace Bindings

/-- **The variables have the values `env` at sample `i`**, each in a block of its own. -/
def BoundAt (b : Bindings) (i : Nat) (env : String → Int32) (names : List String) : Prop :=
  ∀ name ∈ names, ∃ block, b.lookup name = some block ∧ block[i]? = some (env name)

/-- **One stretch of samples behind another**: each variable has the `m` values it has in
the first and then the `n` values it has in the second. -/
def Joins (b b₁ b₂ : Bindings) (m n : Nat) (names : List String) : Prop :=
  ∀ name ∈ names, ∃ x y, b₁.lookup name = some x ∧ x.length = m ∧
    b₂.lookup name = some y ∧ y.length = n ∧ b.lookup name = some (x ++ y)

section Joins

variable {b b₁ b₂ : Bindings} {m n i : Nat} {names : List String} {env : String → Int32}

theorem BoundAt.valuesAt_eq (h : b.BoundAt i env names) :
    ∀ name ∈ names, b.valuesAt i name = env name := by
  intro name hname
  obtain ⟨block, hblock, hvalue⟩ := h name hname
  simp [valuesAt, hblock, hvalue]

theorem Joins.covers (h : b.Joins b₁ b₂ m n names) :
    ∀ name ∈ names, b₁.Covers m name ∧ b₂.Covers n name ∧ b.Covers (m + n) name := by
  intro name hname
  obtain ⟨x, y, hx, hm, hy, hn, hxy⟩ := h name hname
  exact ⟨⟨x, hx, hm⟩, ⟨y, hy, hn⟩, ⟨x ++ y, hxy, by rw [List.length_append, hm, hn]⟩⟩

/-- In the first stretch the variables have the values of the first. -/
theorem Joins.valuesAt_left (h : b.Joins b₁ b₂ m n names) (hi : i < m) :
    ∀ name ∈ names, b.valuesAt i name = b₁.valuesAt i name := by
  intro name hname
  obtain ⟨x, y, hx, hm, -, -, hxy⟩ := h name hname
  have hget : (x ++ y)[i]? = x[i]? := List.getElem?_append_left (hm ▸ hi)
  simp [valuesAt, hx, hxy, hget]

/-- Behind it they have the values of the second. -/
theorem Joins.valuesAt_right (h : b.Joins b₁ b₂ m n names) (i : Nat) :
    ∀ name ∈ names, b.valuesAt (m + i) name = b₂.valuesAt i name := by
  intro name hname
  obtain ⟨x, y, -, hm, hy, -, hxy⟩ := h name hname
  have hget : (x ++ y)[m + i]? = y[i]? := by
    rw [List.getElem?_append_right (hm ▸ Nat.le_add_right m i), hm, Nat.add_sub_cancel_left]
  simp [valuesAt, hy, hxy, hget]

end Joins

end Bindings

namespace Expr

variable {e : Expr} {b b₁ b₂ : Bindings} {m n i : Nat} {env : String → Int32}

/-- **The value of a tree at one sample, in the integers.** Each operation and each function
has its value on the integers that its operands have, and that is reduced to a word before it
goes any further. -/
def scalar (env : String → Int) : Expr → Int
  | const v => v.toInt
  | var name => env name
  | binary op l r => wrapped (op.onIntegers (l.scalar env) (r.scalar env))
  | call _ f args =>
    match args with
    | [] => 0
    | a :: _ => wrapped (f.onInteger (a.scalar env))

/-- **On words a tree has that value.** -/
theorem toInt_value (hr : e.RandFree) (hs : e.Supplied) (env : String → Int32) :
    (e.value env).toInt = e.scalar fun name => (env name).toInt := by
  induction e using inductionOn with
  | const v => rfl
  | var name => rfl
  | binary op l r hl hr' =>
    rw [value, op.toInt_apply, hl hr.1 hs.1, hr' hr.2 hs.2, scalar]
    rfl
  | call name f args ih =>
    have hf := (allCalls_call.mp hr).1
    obtain rfl | ⟨w, a, rest, hw, rfl⟩ := hs.call_cases
    · exact absurd rfl hf
    · have ha := ih a List.mem_cons_self ((allCalls_call.mp hr).2 a List.mem_cons_self)
        ((allCalls_call.mp hs).2 a List.mem_cons_self)
      rw [value_call_cons hw, Builtin.toInt_of_onWord? hw, ha, scalar]

/-- The value at a sample is that of the tree at the values its variables have there. -/
theorem getElem?_values (hi : i < n) (h : b.BoundAt i env e.occurrences) :
    (e.values b n)[i]? = some (e.value env) := by
  rw [values, List.getElem?_map, List.getElem?_range hi, Option.map_some]
  exact congrArg some (value_congr h.valuesAt_eq)

/-- **The values over two stretches** are those over the first and then those over the
second. -/
theorem values_append (h : b.Joins b₁ b₂ m n e.occurrences) :
    e.values b (m + n) = e.values b₁ m ++ e.values b₂ n := by
  rw [values, List.range_add, List.map_append, List.map_map]
  congr 1
  · refine List.map_congr_left fun k hk => ?_
    exact value_congr (h.valuesAt_left (List.mem_range.mp hk))
  · refine List.map_congr_left fun k _ => ?_
    exact value_congr (h.valuesAt_right k)

/-- **Blocks are evaluated sample by sample.** A tree without randomness, whose calls have
the arguments their functions read, evaluates to `n` values wherever its variables are
bound for `n` samples, and its value at sample `i` is the value of the tree in the integers,
`Expr.scalar`, where each variable has its value of sample `i`. So over two stretches of
samples, one behind the other, it evaluates to what it evaluates to over the first and then
over the second. -/
theorem evaluates_samples (hr : e.RandFree) (hs : e.Supplied) :
    (∀ (b : Bindings) (n : Nat), (∀ name ∈ e.occurrences, b.Covers n name) →
      ∃ block, block.length = n ∧ (∀ g, (e.eval b n).Gives g block g) ∧
        ∀ i < n, ∀ env, b.BoundAt i env e.occurrences →
          ∃ v, block[i]? = some v ∧ v.toInt = e.scalar fun name => (env name).toInt) ∧
    (∀ (b b₁ b₂ : Bindings) (m n : Nat), b.Joins b₁ b₂ m n e.occurrences →
      ∃ x y, x.length = m ∧ y.length = n ∧
        ∀ g, (e.eval b₁ m).Gives g x g ∧ (e.eval b₂ n).Gives g y g ∧
          (e.eval b (m + n)).Gives g (x ++ y) g) := by
  constructor
  · intro b n hb
    exact ⟨e.values b n, length_values b n e, hr.eval_gives hs hb,
      fun i hi env henv => ⟨e.value env, getElem?_values hi henv, toInt_value hr hs env⟩⟩
  · intro b b₁ b₂ m n h
    refine ⟨e.values b₁ m, e.values b₂ n, length_values b₁ m e, length_values b₂ n e,
      fun g => ⟨?_, ?_, ?_⟩⟩
    · exact hr.eval_gives hs (fun name hn => (h.covers name hn).1) g
    · exact hr.eval_gives hs (fun name hn => (h.covers name hn).2.1) g
    · rw [← values_append h]
      exact hr.eval_gives hs (fun name hn => (h.covers name hn).2.2) g

/-- A magnitude of a negative value and of a positive one, in a block and between two. The lowest
word has no positive counterpart, and stays where it is. -/
theorem evaluates_samples_abs :
    let e : Expr := .binary .subtract (.call "abs" .abs [.var "t"]) (.var "x")
    let b : Bindings := [("t", [-5, -0x80000000, 7]), ("x", [1, 0, 9])]
    let b₁ : Bindings := [("t", [-5]), ("x", [1])]
    let b₂ : Bindings := [("x", [0, 9]), ("t", [-0x80000000, 7])]
    (∃ block : Block, block.length = 3 ∧ (∀ g, (e.eval b 3).Gives g block g) ∧
      block[0]? = some (4 : Int32) ∧ block[1]? = some (-0x80000000 : Int32) ∧
      block[2]? = some (-2 : Int32)) ∧
    ∃ x y : Block, x.length = 1 ∧ y.length = 2 ∧
      ∀ g, (e.eval b₁ 1).Gives g x g ∧ (e.eval b₂ 2).Gives g y g ∧
        (e.eval b (1 + 2)).Gives g (x ++ y) g := by
  intro e b b₁ b₂
  have hnames : ∀ name ∈ e.occurrences, name = "t" ∨ name = "x" := by
    simp [e, occurrences, occurrencesAll]
  have hr : e.RandFree := by simp [e]
  have hs : e.Supplied := by simp [e, Builtin.reads]
  have hcovers : ∀ name ∈ e.occurrences, b.Covers 3 name := by
    intro name hname
    obtain rfl | rfl := hnames name hname
    · exact ⟨[-5, -0x80000000, 7], rfl, rfl⟩
    · exact ⟨[1, 0, 9], rfl, rfl⟩
  have hjoins : b.Joins b₁ b₂ 1 2 e.occurrences := by
    intro name hname
    obtain rfl | rfl := hnames name hname
    · exact ⟨[-5], [-0x80000000, 7], rfl, rfl, rfl, rfl, rfl⟩
    · exact ⟨[1], [0, 9], rfl, rfl, rfl, rfl, rfl⟩
  obtain ⟨hsamples, hstretches⟩ := evaluates_samples hr hs
  obtain ⟨block, hlength, hgives, hvalues⟩ := hsamples b 3 hcovers
  let env (t x : Int32) : String → Int32 := fun name => if name = "t" then t else x
  have hvalue : ∀ i < 3, ∀ t x v : Int32, ([-5, -0x80000000, 7] : Block)[i]? = some t →
      ([1, 0, 9] : Block)[i]? = some x →
      (e.scalar fun name => (env t x name).toInt) = v.toInt → block[i]? = some v := by
    intro i hi t x v ht hx hv
    obtain ⟨u, hu, hscalar⟩ := hvalues i hi (env t x) fun name hname => by
      obtain rfl | rfl := hnames name hname
      · exact ⟨_, rfl, ht⟩
      · exact ⟨_, rfl, hx⟩
    rw [hu, Int32.toInt_inj.mp (hscalar.trans hv)]
  exact ⟨⟨block, hlength, hgives, hvalue 0 (by decide) (-5) 1 4 rfl rfl (by decide),
      hvalue 1 (by decide) (-0x80000000) 0 (-0x80000000) rfl rfl (by decide),
      hvalue 2 (by decide) 7 9 (-2) rfl rfl (by decide)⟩,
    hstretches b b₁ b₂ 1 2 hjoins⟩

end Expr

end FormulaSynth
