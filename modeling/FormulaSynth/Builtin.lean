import FormulaSynth.Wavetable
/-!
# Builtin functions

The closed set of functions a formula can call. Five of them work on one word
at a time; `rand` takes no argument and draws from the random source. Each has
an arity, the range of argument counts a call may have.

`scramble` is the hash behind `srand`: two steps of a xorshift generator over
an affine image of the word. Its right shift keeps the sign, which is what
makes the hash two-to-one instead of a permutation.
-/

namespace FormulaSynth

/-- **How many arguments a function takes**: inclusive bounds, absent where
there is none. -/
structure Arity where
  lower : Option Nat
  upper : Option Nat
  deriving DecidableEq, Repr

namespace Arity

/-- The arity of a function with a fixed number of arguments. -/
def exactly (count : Nat) : Arity :=
  ⟨some count, some count⟩

/-- Whether a call may have `count` arguments. -/
def accepts (a : Arity) (count : Nat) : Bool :=
  a.lower.all (· ≤ count) && a.upper.all (count ≤ ·)

@[simp] theorem accepts_exactly (n count : Nat) : (exactly n).accepts count = (n == count) := by
  rw [Bool.eq_iff_iff]
  simp [accepts, exactly]
  omega

end Arity

/-- **A function a formula may call.** -/
inductive Builtin where
  | sin | cos | tri | abs | rand | srand
  deriving DecidableEq, Repr

namespace Builtin

/-- Every builtin, in the order of their names. -/
def all : List Builtin := [abs, cos, rand, sin, srand, tri]

@[simp] theorem mem_all (f : Builtin) : f ∈ all := by
  cases f <;> decide

/-- The name a formula calls a builtin by. -/
def name : Builtin → String
  | sin => "sin"
  | cos => "cos"
  | tri => "tri"
  | abs => "abs"
  | rand => "rand"
  | srand => "srand"

/-- `rand` takes no argument and every other builtin takes one. -/
def arity : Builtin → Arity
  | rand => Arity.exactly 0
  | sin | cos | tri | abs | srand => Arity.exactly 1

/-- A word with its sign dropped. The lowest word has no positive counterpart
and stays as it is. -/
def absolute (x : Int32) : Int32 :=
  if x < 0 then -x else x

/-- **The hash behind `srand`.** Its shifts move by fixed amounts within 32 bits
and have nothing to do with the shift operators of a formula. -/
def scramble (x : Int32) : Int32 :=
  let p := (x + 3463) * 2971
  let m := p ^^^ (p <<< 13)
  let r := m ^^^ (m >>> 17)
  r ^^^ (r <<< 5)

/-- **What a builtin makes of one word**, for the builtins that take one. The
cosine is the sine a quarter of a period ahead. -/
def onWord? : Builtin → Option (Int32 → Int32)
  | sin => some fun x => Wavetable.sine.level x
  | cos => some fun x => Wavetable.sine.level (x + 64)
  | tri => some fun x => Wavetable.triangle.level x
  | abs => some absolute
  | srand => some scramble
  | rand => none

end Builtin

end FormulaSynth
