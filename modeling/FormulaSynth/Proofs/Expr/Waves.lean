import FormulaSynth.Proofs.Expr.Meaning
import FormulaSynth.Proofs.Word.Arithmetic
/-!
# Waves

Three builtins look their argument up in one period of a wave, `Builtin.wave?`: the sine, the
cosine, which is the sine a quarter of a period ahead, and the triangle. Any word is a phase, and
its place in the period is its remainder modulo 256.

Words wrap at 32 bits, and a phase is wrapped at 256. The one is a multiple of the other, so the
place of a sum that has wrapped is that of the exact sum (`Wavetable.toInt_add_emod`). Hence whole
periods can be added to a phase without being heard (`Wavetable.level_add_periods`), also where
the sum wraps, and a quarter added to the argument of a sine is the same as the quarter that the
cosine adds. In a block this is so at every sample. As computations, the calls are the same
(`Expr.waves_periodic`): they have the same draws, the same block and the same failure.
-/

namespace FormulaSynth

/-! ## Phases -/

namespace Wavetable

/-- Every lookup is one of the table. -/
theorem getElem?_levels (w : Wavetable) (x : Int32) : w.levels[index x]? = some (w.level x) :=
  Vector.getElem?_eq_getElem (index_lt x)

/-- A level is known from its place. -/
theorem level_congr (w : Wavetable) {x y : Int32} (h : index x = index y) :
    w.level x = w.level y := by
  unfold level
  simp only [h]

/-- **The place of a sum that wraps is that of the exact sum.** -/
theorem toInt_add_emod (x y : Int32) : (x + y).toInt % 256 = (x.toInt + y.toInt) % 256 := by
  rw [Int32.toInt_add, bmod_emod_of_dvd _ (by decide)]

/-- **Whole periods cannot be heard**, not even where they wrap. -/
theorem level_add_periods (w : Wavetable) (x : Int32) (k : Int) :
    w.level (x + Int32.ofInt (256 * k)) = w.level x := by
  have hplace : (x + Int32.ofInt (256 * k)).toInt % 256 = x.toInt % 256 := by
    rw [toInt_add_emod, Int32.toInt_ofInt, Int.add_emod, bmod_emod_of_dvd _ (by decide),
      ← Int.add_emod, Int.add_mul_emod_self_left]
  exact w.level_congr (congrArg Int.toNat hplace)

end Wavetable

/-! ## The functions that are waves -/

namespace Builtin

/-- The functions that look their argument up in a wave. -/
def waves : List Builtin := [sin, cos, tri]

/-- **The wave that a function looks its argument up in**, and how far ahead. -/
def wave? : Builtin → Option (Wavetable × Int32)
  | sin => some (.sine, 0)
  | cos => some (.sine, 64)
  | tri => some (.triangle, 0)
  | abs | rand | srand => none

theorem exists_wave? {f : Builtin} (h : f ∈ waves) : ∃ w ahead, f.wave? = some (w, ahead) := by
  simp only [waves, List.mem_cons, List.not_mem_nil, or_false] at h
  obtain rfl | rfl | rfl := h
  · exact ⟨_, _, rfl⟩
  · exact ⟨_, _, rfl⟩
  · exact ⟨_, _, rfl⟩

/-- Such a function looks up the phase that is so far ahead. -/
theorem onWord?_of_wave? {f : Builtin} {w : Wavetable} {ahead : Int32}
    (h : f.wave? = some (w, ahead)) : f.onWord? = some fun x => w.level (x + ahead) := by
  cases f with
  | sin =>
    obtain ⟨rfl, rfl⟩ := Prod.mk.inj (Option.some.inj h)
    simp only [Int32.add_zero]
    rfl
  | cos =>
    obtain ⟨rfl, rfl⟩ := Prod.mk.inj (Option.some.inj h)
    rfl
  | tri =>
    obtain ⟨rfl, rfl⟩ := Prod.mk.inj (Option.some.inj h)
    simp only [Int32.add_zero]
    rfl
  | abs | rand | srand => exact absurd h (Option.some_ne_none _).symm

end Builtin

namespace Expr

variable {b : Bindings} {n : Nat} {a : Expr} {f : Builtin} {w : Wavetable} {ahead : Int32}

/-- With its variables bound for `n` samples a tree gives `n` values. -/
theorem length_of_gives_of_covers (hb : ∀ name ∈ a.occurrences, b.Covers n name) {g g' : Random}
    {values : Block} (h : (a.eval b n).Gives g values g') : values.length = n := by
  obtain ⟨rfl, -⟩ := h.unique ((evaluable_of_gives h).eval_gives hb g)
  rw [List.length_map, List.length_range]

/-- A constant is added at every sample. -/
theorem eval_add_const (hb : ∀ name ∈ a.occurrences, b.Covers n name) (c : Int32) :
    (binary .add a (const c)).eval b n = (do
      let x ← a.eval b n
      pure (x.map fun v => v + c)) := by
  rw [eval]
  refine Evaluation.bind_congr_of_gives fun g x g' h => ?_
  have hlength := length_of_gives_of_covers hb h
  subst hlength
  have hsum : combine Operation.add.apply x (List.replicate x.length c) =
      x.map fun v => v + c := by
    rw [combine_eq_zipWith _ (List.length_replicate ▸ le_rfl)]
    refine List.ext_getElem (by simp) fun i _ _ => ?_
    simp [Operation.apply]
  rw [eval, pure_bind, hsum]

/-- **A wave at every sample.** -/
theorem eval_wave (h : f.wave? = some (w, ahead)) (b : Bindings) (n : Nat) (name : String)
    (a : Expr) : (call name f [a]).eval b n = (do
      let x ← a.eval b n
      pure (x.map fun v => w.level (v + ahead))) :=
  eval_call_cons (Builtin.onWord?_of_wave? h) b

/-- A wave of a sum with a constant. -/
theorem eval_wave_add (h : f.wave? = some (w, ahead))
    (hb : ∀ name ∈ a.occurrences, b.Covers n name) (name : String) (c : Int32) :
    (call name f [binary .add a (const c)]).eval b n = (do
      let x ← a.eval b n
      pure (x.map fun v => w.level (v + c + ahead))) := by
  rw [eval_wave h, eval_add_const hb, bind_assoc]
  simp only [pure_bind, List.map_map]
  rfl

/-- The cosine is the sine of an argument a quarter of a period ahead. -/
theorem eval_cos (hb : ∀ name ∈ a.occurrences, b.Covers n name) (name name' : String) :
    (call name .cos [a]).eval b n = (call name' .sin [binary .add a (const 64)]).eval b n := by
  rw [eval_wave (f := .cos) rfl, eval_wave_add (f := .sin) rfl hb]
  simp only [Int32.add_zero]

/-- A wave is the same whole periods ahead. -/
theorem eval_wave_periods (h : f.wave? = some (w, ahead))
    (hb : ∀ name ∈ a.occurrences, b.Covers n name) (name name' : String) (k : Int) :
    (call name f [binary .add a (const (Int32.ofInt (256 * k)))]).eval b n =
      (call name' f [a]).eval b n := by
  have hlevel : ∀ v, w.level (v + Int32.ofInt (256 * k) + ahead) = w.level (v + ahead) := by
    intro v
    rw [Int32.add_assoc, Int32.add_comm _ ahead, ← Int32.add_assoc, w.level_add_periods]
  rw [eval_wave_add h hb, eval_wave h]
  simp only [hlevel]

/-! ## The waves are periodic -/

/-- **The waves are periodic.** With the variables of an argument bound for `n` samples, its cosine
is the same computation as the sine of the argument with 64 added, by whatever names they are
called; and with any multiple of 256 added to the argument, wrapped to a word, sine, cosine and
triangle are the same computations as without. So from every source they have the same block and
leave the same source; and a block of `n` values they have if the argument evaluates. What is
looked up is the argument, a fixed number of places ahead, and the place of every word is one of
the 256 of the table. -/
theorem waves_periodic (hb : ∀ name ∈ a.occurrences, b.Covers n name) :
    (∀ name name',
      (call name .cos [a]).eval b n = (call name' .sin [binary .add a (const 64)]).eval b n) ∧
    (∀ f ∈ Builtin.waves,
      (∀ name name' (k : Int),
        (call name f [binary .add a (const (Int32.ofInt (256 * k)))]).eval b n =
          (call name' f [a]).eval b n) ∧
      (a.Evaluable → ∀ name g, ∃ block g',
        ((call name f [a]).eval b n).Gives g block g' ∧ block.length = n) ∧
      ∃ (w : Wavetable) (ahead : Int32), f.onWord? = some fun x => w.level (x + ahead)) ∧
    ∀ (w : Wavetable) (x : Int32),
      Wavetable.index x < 256 ∧ w.levels[Wavetable.index x]? = some (w.level x) := by
  refine ⟨eval_cos hb, fun f hf => ?_, fun w x => ⟨Wavetable.index_lt x, w.getElem?_levels x⟩⟩
  obtain ⟨w, ahead, hwave⟩ := Builtin.exists_wave? hf
  refine ⟨fun name name' k => eval_wave_periods hwave hb name name' k, fun ha name g => ?_,
    w, ahead, Builtin.onWord?_of_wave? hwave⟩
  rw [eval_wave hwave]
  refine ⟨_, _, (ha.eval_gives hb g).bind (Evaluation.gives_pure _ _), ?_⟩
  rw [List.length_map, List.length_map, List.length_range]

/-- Phases at both ends of the words and below zero, a quarter of a period ahead and three periods
back. -/
theorem waves_periodic_edges :
    let a : Expr := .var "x"
    let b : Bindings := [("x", [Int32.minValue, -1, Int32.maxValue])]
    (∀ name ∈ a.occurrences, b.Covers 3 name) ∧
      (call "cos" .cos [a]).eval b 3 = (call "sin" .sin [binary .add a (const 64)]).eval b 3 ∧
      (call "tri" .tri [binary .add a (const (-768))]).eval b 3 =
        (call "tri" .tri [a]).eval b 3 ∧
      ∀ g, ∃ block g', ((call "cos" .cos [a]).eval b 3).Gives g block g' ∧ block.length = 3 := by
  intro a b
  have hb : ∀ name ∈ a.occurrences, b.Covers 3 name := by
    intro name hname
    obtain rfl := List.mem_singleton.mp hname
    exact ⟨_, rfl, rfl⟩
  obtain ⟨hcos, hwaves, -⟩ := waves_periodic hb
  obtain ⟨hperiods, -, -⟩ := hwaves .tri (by decide)
  obtain ⟨-, hblock, -⟩ := hwaves .cos (by decide)
  have hback := hperiods "tri" "tri" (-3)
  have hwrapped : Int32.ofInt (256 * (-3)) = -768 := by decide
  rw [hwrapped] at hback
  exact ⟨hb, hcos "cos" "sin", hback, hblock trivial "cos"⟩

end Expr

end FormulaSynth
