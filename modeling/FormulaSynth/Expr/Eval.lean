import FormulaSynth.Expr.Basic
import FormulaSynth.Random
/-!
# Evaluation

A tree is evaluated for a whole block of samples at once: every variable stands
for one word per sample, and so does the result. Operations and one-word
builtins work sample by sample, so the block is only a matter of speed, except
that `rand` draws for the samples of a block in one go. The left operand's draws
come before the right operand's.

Two things can be missing: a variable without a value, and the argument of a
call that has none. Both end the evaluation, and what was drawn until then stays
drawn.

Whoever binds variables has to give each of them a value for every sample.
A strict evaluation, as it is made while the program is being developed, insists
on that and ends at a block of another length. Otherwise lengths are not looked
at, and an operation leaves its left operand as it is where the right one ends.
-/

namespace FormulaSynth

/-- One word for each sample of a block. -/
abbrev Block := List Int32

/-- **The values of variables**, each for every sample of a block. The first entry
of a name counts. -/
abbrev Bindings := List (String × Block)

/-- What ends an evaluation. -/
inductive EvalError where
  | unbound (name : String)
  | missingArgument (name : String)
  /-- A variable has a block of a length that was not asked for. -/
  | wrongLength (name : String) (found asked : Nat)
  deriving DecidableEq

/-- The text of an evaluation error. -/
def EvalError.message : EvalError → String
  | unbound name => s!"no binding supplied for variable {name}"
  | missingArgument _ => "index out of bounds: the len is 0 but the index is 0"
  | wrongLength name found asked =>
    "assertion `left == right` failed: " ++ s!"binding {name} has the wrong length" ++
      s!"\n  left: {found}\n right: {asked}"

/-- **A computation that draws from the random source and may fail.** The draws
made before a failure are not undone. -/
abbrev Evaluation := ExceptT EvalError (StateM Random)

namespace Expr

/-- **An operation done in place** on the block of its left operand. Where the right
operand has no value the left one stays as it is. -/
def combine (f : Int32 → Int32 → Int32) : Block → Block → Block
  | x :: xs, y :: ys => f x y :: combine f xs ys
  | xs, _ => xs

/-- On blocks of one length an operation is done value by value. -/
theorem combine_eq_zipWith (f : Int32 → Int32 → Int32) {x y : Block}
    (h : x.length ≤ y.length) : combine f x y = List.zipWith f x y := by
  induction x generalizing y with
  | nil => cases y <;> rfl
  | cons v x ih =>
    cases y with
    | nil => cases h
    | cons w y => rw [combine, List.zipWith_cons_cons, ih (Nat.le_of_succ_le_succ h)]

/-- Values that belong to the same samples are combined sample by sample. -/
theorem combine_map {α : Type} (f : Int32 → Int32 → Int32) (u v : α → Int32) (ks : List α) :
    combine f (ks.map u) (ks.map v) = ks.map fun k => f (u k) (v k) := by
  rw [combine_eq_zipWith f (by simp), List.zipWith_map, List.zipWith_self]

@[simp] theorem length_combine (f : Int32 → Int32 → Int32) (x y : Block) :
    (combine f x y).length = x.length := by
  induction x generalizing y with
  | nil => cases y <;> rfl
  | cons v x ih =>
    cases y with
    | nil => rfl
    | cons w y => rw [combine, List.length_cons, List.length_cons, ih]

/-- **The values of a tree over a block of `n` samples.** -/
def eval (b : Bindings) (n : Nat) (e : Expr) (strict : Bool := false) : Evaluation Block :=
  match e with
  | const v => pure (List.replicate n v)
  | var name =>
    match b.lookup name with
    | none => throw (.unbound name)
    | some block =>
      if strict && block.length != n then throw (.wrongLength name block.length n)
      else pure block
  | binary op l r => do
    let x ← l.eval b n strict
    let y ← r.eval b n strict
    pure (combine op.apply x y)
  | call name f args =>
    match f.onWord?, args with
    | none, _ => (Random.draw n : StateM Random Block)
    | some _, [] => throw (.missingArgument name)
    | some g, a :: _ => do
      let x ← a.eval b n strict
      pure (x.map g)

theorem eval_var_of_lookup {b : Bindings} {name : String} {block : Block}
    (h : b.lookup name = some block) (n : Nat) : (var name).eval b n = pure block := by
  simp [eval, h]

theorem eval_var_of_unbound {b : Bindings} {name : String} (h : b.lookup name = none)
    (n : Nat) (strict : Bool) : (var name).eval b n strict = throw (.unbound name) := by
  simp [eval, h]

end Expr

end FormulaSynth
