import FormulaSynth.Decimal.Integer
/-!
# The shortest decimal of a floating-point number

A double stands for every real number that rounds to it, an interval around its
exact value. It is written with the fewest digits that name a number in the
interval, and among those with the number nearest to the exact value; of two
equally near the greater one is taken.

A number with a given count of digits lies on a decimal grid. If any point of the
grid is in the interval, one of the two neighbours of the exact value is, so
nothing but those two has to be tried, on grids from one digit upwards. All of it
is arithmetic on natural numbers: the exact value, the ends of the interval and
the grid are brought to one denominator first.
-/

namespace FormulaSynth

namespace Decimal

/-- A positive double taken apart: its exact value is `mantissa` times two to the
`exponent`. The doubles below it are half as far apart as those above it if it is
`narrow`. -/
structure Binary where
  mantissa : Nat
  exponent : Int
  narrow : Bool

/-- The bit that a mantissa has before its fraction, unless it is among the least. -/
def Binary.hiddenBit : Nat := 0x10000000000000

/-- The parts of a double from its bits, without its sign. -/
def Binary.ofBits (bits : UInt64) : Binary :=
  let field := (bits >>> 52).toNat % 2048
  let fraction := bits.toNat % hiddenBit
  if field = 0 then ⟨fraction, -1074, false⟩
  else ⟨hiddenBit + fraction, (field : Int) - 1075, fraction == 0 && decide (1 < field)⟩

/-- A decimal: `digits` times ten to the `exponent`. -/
structure Scientific where
  digits : Nat
  exponent : Int
  deriving DecidableEq, Repr

/-- A power with the exponent cut off at zero, for a denominator or a numerator. -/
def powFor (base : Nat) (e : Int) : Nat :=
  Nat.pow base e.toNat

namespace Binary

/-- The numerator of the exact value. -/
def numerator (x : Binary) : Nat := x.mantissa * powFor 2 x.exponent

/-- The denominator of the exact value. -/
def denominator (x : Binary) : Nat := powFor 2 (-x.exponent)

/-- The number of digits of a natural number, one for zero. -/
def digitCount (n : Nat) : Nat :=
  (Nat.toDigits 10 n).length

/-- The power of ten just above the exact value: the least `k` with the value
below ten to the `k`. -/
def magnitude (x : Binary) : Int :=
  if x.denominator ≤ x.numerator then
    digitCount (x.numerator / x.denominator)
  else
    1 - (digitCount ((x.denominator - 1) / x.numerator) : Int)

/-- The better neighbour of the exact value among the multiples of ten to the `e`,
if one of them lies in the interval that rounds to the value. The interval has its
ends if the mantissa is even. -/
def onGrid? (x : Binary) (e : Int) : Option Scientific :=
  -- a quarter of the last place of the mantissa, and a step of the grid, over one denominator
  let quarter := powFor 2 (x.exponent - 2) * powFor 10 (-e)
  let step := powFor 10 e * powFor 2 (2 - x.exponent)
  let value := 4 * x.mantissa * quarter
  let low := (4 * x.mantissa - if x.narrow then 1 else 2) * quarter
  let high := (4 * x.mantissa + 2) * quarter
  let below := value / step
  let above := below + 1
  let fits (p : Nat) : Bool :=
    if x.mantissa % 2 = 0 then low ≤ p && p ≤ high else low < p && p < high
  if fits (below * step) && (!fits (above * step) || value - below * step < above * step - value)
  then some ⟨below, e⟩
  else if fits (above * step) then some ⟨above, e⟩
  else none

/-- **The shortest decimal of a positive double.** Seventeen digits are always
enough. -/
def shortest (x : Binary) : Scientific :=
  let found := (List.range 17).findSome? fun n => x.onGrid? (x.magnitude - (n + 1 : Nat))
  found.getD ⟨x.mantissa, x.exponent⟩

end Binary

/-! ## Positional text -/

/-- **A decimal written out**, with a point only where there are digits behind
it. -/
def Scientific.positional (x : Scientific) : List Char :=
  -- ten on the grid of tens is one on the next grid
  let x : Scientific := if x.digits % 10 = 0 then ⟨x.digits / 10, x.exponent + 1⟩ else x
  let digits := Nat.toDigits 10 x.digits
  if 0 ≤ x.exponent then digits ++ List.replicate x.exponent.toNat '0'
  else
    let places := (-x.exponent).toNat
    if places < digits.length then
      digits.take (digits.length - places) ++ '.' :: digits.drop (digits.length - places)
    else
      '0' :: '.' :: (List.replicate (places - digits.length) '0' ++ digits)

/-- **The text of a floating-point number**: its shortest decimal written out, with
a minus sign if its sign bit is set, and words for what is no number. -/
def ofFloat (x : Float) : List Char :=
  if x.isNaN then ['N', 'a', 'N']
  else
    let bits := x.toBits
    let sign := if bits >>> 63 = 1 then ['-'] else []
    if x.isInf then sign ++ ['i', 'n', 'f']
    else
      let parts := Binary.ofBits bits
      if parts.mantissa = 0 then sign ++ ['0'] else sign ++ parts.shortest.positional

/-! ## Reading -/

/-- **The double nearest to `digits` times ten to the `exponent`**, infinite where
the number is too great. Exponents far outside the range of doubles are settled
without being worked out. -/
def toFloat (digits : Nat) (exponent : Int) : Float :=
  let magnitude := (Binary.digitCount digits : Int) + exponent
  if digits = 0 || magnitude < -400 then 0.0
  else if 400 < magnitude then 1.0 / 0.0
  else if exponent < 0 then Float.ofScientific digits true exponent.natAbs
  else Float.ofScientific digits false exponent.natAbs

end Decimal

end FormulaSynth
