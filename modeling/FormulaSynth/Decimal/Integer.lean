/-!
# Integers in decimal

The decimal text of an integer, without leading zeros and with a minus sign
where it is negative, and the value of a run of digits.
-/

namespace FormulaSynth

namespace Decimal

/-- **The decimal text of an integer.** -/
def ofInt (i : Int) : List Char :=
  if i < 0 then '-' :: Nat.toDigits 10 i.natAbs else Nat.toDigits 10 i.natAbs

/-- Whether a character is one of the ten digits. -/
def isDigit (c : Char) : Bool :=
  '0' ≤ c && c ≤ '9'

/-- The value of a digit. -/
def digitValue (c : Char) : Nat :=
  c.toNat - '0'.toNat

/-- **The value of a run of digits**, the first being the highest. -/
def toNat (digits : List Char) : Nat :=
  digits.foldl (fun n c => 10 * n + digitValue c) 0

/-- The value of a run of digits that a minus sign may precede. -/
def toInt : List Char → Int
  | '-' :: digits => -(toNat digits : Int)
  | digits => toNat digits

/-! ## Reading back -/

theorem isDigit_of_mem_toDigits {n : Nat} {c : Char} (h : c ∈ Nat.toDigits 10 n) :
    isDigit c = true :=
  Nat.isDigit_of_mem_toDigits (by decide) (by decide) h

theorem toNat_concat (digits : List Char) (c : Char) :
    toNat (digits ++ [c]) = 10 * toNat digits + digitValue c := by
  rw [toNat, List.foldl_append]
  rfl

theorem digitValue_digitChar {n : Nat} (h : n < 10) : digitValue n.digitChar = n := by
  have hzero : '0'.toNat = 48 := rfl
  rw [digitValue, Nat.toNat_digitChar_of_lt_ten h, hzero, Nat.add_sub_cancel_left]

/-- The digits of a number have its value. -/
theorem toNat_toDigits (n : Nat) : toNat (Nat.toDigits 10 n) = n := by
  induction n using Nat.strongRecOn with
  | ind n ih =>
    rw [Nat.toDigits_eq_if (by decide)]
    split
    · next hlt =>
      show 10 * 0 + digitValue n.digitChar = n
      rw [digitValue_digitChar hlt, Nat.mul_zero, Nat.zero_add]
    · next hge =>
      rw [toNat_concat, ih (n / 10) (by omega), digitValue_digitChar (by omega)]
      omega

/-- **The text of an integer has its value.** -/
theorem toInt_ofInt (i : Int) : toInt (ofInt i) = i := by
  unfold ofInt
  split
  · rw [toInt, toNat_toDigits]
    omega
  · -- a digit is no minus sign
    unfold toInt
    split
    · next digits hdigits =>
      have hminus : '-' ∈ Nat.toDigits 10 i.natAbs := hdigits ▸ List.mem_cons_self
      exact absurd (isDigit_of_mem_toDigits hminus) (by decide)
    · rw [toNat_toDigits]
      omega

end Decimal

end FormulaSynth
