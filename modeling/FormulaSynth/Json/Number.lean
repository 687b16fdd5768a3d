import FormulaSynth.Data
import FormulaSynth.Decimal.Integer
import FormulaSynth.Text.Scanner
/-!
# Numbers in JSON

A number without a fraction and an exponent is an integer, if it fits 64 bits with
or without a sign; any other is a real number. Minus zero is a real number too, as
no integer has its sign.

A real number is worked out fast rather than to the last bit. Digits are taken into
a significand as long as that fits 64 bits; digits before the point that are left
out count as zeros and digits behind it as nothing. The significand, rounded to a
double, is then multiplied or divided by a power of ten, which rounds again. So the
result can be a neighbour of the nearest double. A number that exceeds all doubles
is a value that nothing can be made of.
-/

namespace FormulaSynth

namespace Json

open Scanner

/-! ## Form -/

/-- **The parts of a number as it is written.** -/
structure Number where
  negative : Bool
  /-- The digits before the point. -/
  whole : List Char
  /-- The digits behind the point, if there is one. -/
  fraction : Option (List Char)
  exponent : Option Int

namespace Number

/-- The digits before the point: nothing follows a zero. -/
def whole? : Scanner (List Char)
  | '0' :: cs => if (cs.head?.map Decimal.isDigit).getD false then none else some (['0'], cs)
  | cs => run1 Decimal.isDigit cs

/-- The digits behind the point, if there is a point. -/
def fraction? : Scanner (Option (List Char))
  | '.' :: cs => (run1 Decimal.isDigit cs).map fun (ds, cs) => (some ds, cs)
  | cs => some (none, cs)

/-- The digits of an exponent behind its sign. -/
def exponentDigits (negative : Bool) : Scanner (Option Int) := fun cs =>
  (run1 Decimal.isDigit cs).map fun (ds, cs) =>
    let n : Int := Decimal.toNat ds
    (some (if negative then -n else n), cs)

/-- The exponent, if there is one. -/
def exponent? : Scanner (Option Int)
  | 'e' :: '-' :: cs | 'E' :: '-' :: cs => exponentDigits true cs
  | 'e' :: '+' :: cs | 'E' :: '+' :: cs => exponentDigits false cs
  | 'e' :: cs | 'E' :: cs => exponentDigits false cs
  | cs => some (none, cs)

/-- The parts of a number behind its sign. -/
def unsigned (negative : Bool) : Scanner Number := fun cs => do
  let (whole, cs) ← whole? cs
  let (fraction, cs) ← fraction? cs
  let (exponent, cs) ← exponent? cs
  return (⟨negative, whole, fraction, exponent⟩, cs)

/-- **The parts of a number.** -/
def scan : Scanner Number
  | '-' :: cs => unsigned true cs
  | cs => unsigned false cs

/-! ## Value -/

/-- A significand continued by digits as long as it fits 64 bits, and the digits
left out. -/
def takeDigits : Nat → List Char → Nat × List Char
  | s, [] => (s, [])
  | s, c :: cs =>
    let next := 10 * s + Decimal.digitValue c
    if next < UInt64.size then takeDigits next cs else (s, c :: cs)

/-- A double times a power of ten. A power too great to be a double is divided by in
steps, as long as anything is left. -/
def scale (x : Float) (e : Int) : Float :=
  if 308 < e then if x == 0.0 then x else 1.0 / 0.0
  else if 0 ≤ e then x * Float.ofScientific 1 false e.toNat
  else if -308 ≤ e then x / Float.ofScientific 1 false (-e).toNat
  else if x == 0.0 then x
  else scale (x / 1e308) (e + 308)
termination_by (-e).toNat

/-- The real number of the parts, without its sign. -/
def magnitude (n : Number) : Float :=
  let fraction := n.fraction.getD []
  let (s, zeros) := takeDigits 0 n.whole
  let (s, unread) := takeDigits s fraction
  let places := fraction.length - unread.length
  scale (UInt64.ofNat s).toFloat (zeros.length - places + n.exponent.getD 0)

/-- The parts as a real number. -/
def real (n : Number) : Data :=
  let x := n.magnitude
  if x.isInf then .opaque_ else .real (if n.negative then -x else x)

/-- **The value of the parts.** -/
def value (n : Number) : Data :=
  if n.fraction.isSome || n.exponent.isSome then n.real
  else
    let i := Decimal.toNat n.whole
    if n.negative then
      if 0 < i ∧ i ≤ 0x8000000000000000 then .integer (-i) else n.real
    else if i < UInt64.size then .integer i
    else n.real

end Number

end Json

end FormulaSynth
