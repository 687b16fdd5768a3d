import FormulaSynth.Operation
import Mathlib.Data.Int.Bitwise
/-!
# The arithmetic of words

An operator has a value on integers of any size, `Operation.onIntegers`: sums, differences and
products as they are, the quotient cut off toward zero with the remainder that goes with it,
bits of a two's complement that goes on forever, and shifts that multiply and divide by a power
of two. On words it has that value, reduced to 32 bits with a sign (`Operation.toInt_apply`).
This is one law for all ten operators; the rest are consequences for division and for shifts.

The quotient of the lowest word by -1 is no word, and wraps to the lowest word. Wherever quotients
wrap, though, the product with the divisor wraps back, so the quotient times the divisor with the
remainder added is the dividend for every divisor but zero
(`Operation.apply_add_multiply_divide_modulo`).

The amount of a shift is the right operand modulo sixteen, counted up from zero also for negative
operands. In two's complement these are the low four bits, whatever the sign.
-/

namespace FormulaSynth

/-! ## Reduced integers -/

/-- Reducing an integer keeps its remainders by the divisors of the modulus. -/
theorem bmod_emod_of_dvd (a : Int) {m : Int} {n : Nat} (h : m ∣ n) : a.bmod n % m = a % m := by
  rw [← Int.emod_emod_of_dvd _ h, Int.bmod_emod, Int.emod_emod_of_dvd _ h]

/-- A bit of a word made from an integer is that bit of the integer. -/
theorem getLsbD_ofInt (w i : Nat) (a : Int) :
    (BitVec.ofInt w a).getLsbD i = (decide (i < w) && a.testBit i) := by
  cases a with
  | ofNat m => exact BitVec.getLsbD_ofNat w m i
  | negSucc m =>
    rw [BitVec.ofInt_negSucc_eq_not_ofNat, BitVec.getLsbD_not, BitVec.getLsbD_ofNat]
    cases hi : decide (i < w) <;> simp [Int.testBit]

/-! ## Shifts of words -/

/-- An amount below the width is not reduced. -/
theorem toNat_smod_ofNat {a : Nat} (h : a < 32) :
    ((Int32.ofNat a).toBitVec.smod 32).toNat = a := by
  have hall : ∀ a < 32, ((Int32.ofNat a).toBitVec.smod 32).toNat = a := by decide
  exact hall a h

theorem toBitVec_shiftLeft_ofNat (x : Int32) {a : Nat} (h : a < 32) :
    (x <<< Int32.ofNat a).toBitVec = x.toBitVec <<< a := by
  rw [Int32.toBitVec_shiftLeft, BitVec.shiftLeft_eq', toNat_smod_ofNat h]

theorem toBitVec_shiftRight_ofNat (x : Int32) {a : Nat} (h : a < 32) :
    (x >>> Int32.ofNat a).toBitVec = x.toBitVec.sshiftRight a := by
  rw [Int32.toBitVec_shiftRight, BitVec.sshiftRight_eq', toNat_smod_ofNat h]

/-- **A shift to the left multiplies by a power of two.** -/
theorem toInt_shiftLeft_ofNat (x : Int32) {a : Nat} (h : a < 32) :
    (x <<< Int32.ofNat a).toInt = (x.toInt * 2 ^ a).bmod Int32.size := by
  have hcast : ((x.toBitVec.toNat <<< a : Nat) : Int) = (x.toBitVec.toNat : Int) * 2 ^ a := by
    rw [Nat.shiftLeft_eq, Int.natCast_mul, Int.natCast_pow]
    rfl
  rw [← Int32.toInt_toBitVec, toBitVec_shiftLeft_ofNat x h, BitVec.toInt_shiftLeft, hcast,
    ← Int.bmod_mul_bmod, ← BitVec.toInt_eq_toNat_bmod, Int32.toInt_toBitVec]

/-- **A shift to the right divides by a power of two** and rounds down. -/
theorem toInt_shiftRight_ofNat (x : Int32) {a : Nat} (h : a < 32) :
    (x >>> Int32.ofNat a).toInt = x.toInt.fdiv (2 ^ a) := by
  have hcast : ((2 ^ a : Nat) : Int) = 2 ^ a := Int.natCast_pow 2 _
  rw [← Int32.toInt_toBitVec, toBitVec_shiftRight_ofNat x h, BitVec.toInt_sshiftRight,
    Int32.toInt_toBitVec, Int.shiftRight_eq_div_pow, ← hcast,
    Int.fdiv_eq_ediv_of_nonneg _ (Int.natCast_nonneg _)]

namespace Operation

/-! ## The values of operators on integers -/

/-- **The value of an operator on a pair of integers.** Nothing is reduced here. -/
def onIntegers (op : Operation) (l r : Int) : Int :=
  match op with
  | xor => l.xor r
  | and => l.land r
  | or => l.lor r
  | add => l + r
  | subtract => l - r
  | multiply => l * r
  | divide => if r = 0 then 0 else l.tdiv r
  | modulo => if r = 0 then 0 else l.tmod r
  | shiftLeft => l * 2 ^ (r % 16).toNat
  | shiftRight => l.fdiv (2 ^ (r % 16).toNat)

variable (l r : Int32)

/-! ## The amount of a shift -/

/-- The amount is the Euclidean remainder. -/
theorem shiftAmount_eq_emod : (shiftAmount r : Int) = r.toInt % 16 :=
  Int.toNat_of_nonneg (Int.emod_nonneg _ (by decide))

/-- **The amount is what the low four bits are**, also of a negative word. -/
theorem shiftAmount_eq_mod : shiftAmount r = r.toBitVec.toNat % 16 := by
  have hword : r.toInt % 16 = (r.toBitVec.toNat : Int) % 16 := by
    rw [← Int32.toInt_toBitVec, BitVec.toInt_eq_toNat_bmod, bmod_emod_of_dvd _ (by decide)]
  have := shiftAmount_eq_emod r
  omega

/-- The low four bits are what is left of the word under a mask. -/
theorem toInt_and_fifteen : (and.apply r 15).toInt = shiftAmount r := by
  have hmask : (r.toBitVec &&& 15#32).toNat = shiftAmount r := by
    rw [BitVec.toNat_and, shiftAmount_eq_mod]
    exact Nat.and_two_pow_sub_one_eq_mod _ 4
  have hlt := shiftAmount_lt r
  show (r &&& 15).toBitVec.toInt = _
  rw [Int32.toBitVec_and]
  show (r.toBitVec &&& 15#32).toInt = _
  rw [BitVec.toInt_eq_toNat_of_lt (by omega), hmask]

/-- A shift to the left multiplies by a power of two. -/
theorem toInt_shiftLeft :
    (shiftLeft.apply l r).toInt = (l.toInt * 2 ^ shiftAmount r).bmod Int32.size :=
  toInt_shiftLeft_ofNat l (Nat.lt_trans (shiftAmount_lt r) (by decide))

/-- A shift to the right divides by a power of two and rounds down. -/
theorem toInt_shiftRight :
    (shiftRight.apply l r).toInt = l.toInt.fdiv (2 ^ shiftAmount r) :=
  toInt_shiftRight_ofNat l (Nat.lt_trans (shiftAmount_lt r) (by decide))

/-! ## The values of operators on words -/

/-- A word whose bits are those of an integer is that integer, reduced. -/
theorem toInt_of_testBit {x : Int32} {a : Int}
    (h : ∀ i < 32, x.toBitVec.getLsbD i = a.testBit i) : x.toInt = a.bmod Int32.size := by
  have hx : x.toBitVec = BitVec.ofInt 32 a := by
    refine BitVec.eq_of_getLsbD_eq fun i hi => ?_
    rw [h i hi, getLsbD_ofInt, decide_eq_true hi, Bool.true_and]
  rw [← Int32.toInt_toBitVec, hx, BitVec.toInt_ofInt]

/-- A bit of a word is that bit of its integer. -/
theorem testBit_toInt (x : Int32) {i : Nat} (hi : i < 32) :
    x.toInt.testBit i = x.toBitVec.getLsbD i := by
  rw [← BitVec.ofInt_toInt (x := x.toBitVec), getLsbD_ofInt, decide_eq_true hi, Bool.true_and,
    Int32.toInt_toBitVec]

/-- **On words an operator has its value on integers, reduced to 32 bits with a sign.** -/
theorem toInt_apply (op : Operation) (l r : Int32) :
    (op.apply l r).toInt = (op.onIntegers l.toInt r.toInt).bmod Int32.size := by
  have hzero : r = 0 ↔ r.toInt = 0 := Int32.toInt_inj.symm
  cases op with
  | xor =>
    refine toInt_of_testBit fun i hi => ?_
    rw [onIntegers, Int.testBit_lxor, testBit_toInt l hi, testBit_toInt r hi]
    exact BitVec.getLsbD_xor
  | and =>
    refine toInt_of_testBit fun i hi => ?_
    rw [onIntegers, Int.testBit_land, testBit_toInt l hi, testBit_toInt r hi]
    exact BitVec.getLsbD_and
  | or =>
    refine toInt_of_testBit fun i hi => ?_
    rw [onIntegers, Int.testBit_lor, testBit_toInt l hi, testBit_toInt r hi]
    exact BitVec.getLsbD_or
  | add => exact Int32.toInt_add l r
  | subtract => exact Int32.toInt_sub l r
  | multiply => exact Int32.toInt_mul l r
  | divide =>
    simp only [apply, onIntegers, hzero]
    split
    · rfl
    · exact Int32.toInt_div l r
  | modulo =>
    simp only [apply, onIntegers, hzero]
    split
    · rfl
    · rw [← Int32.toInt_mod, Int32.toInt_bmod]
  | shiftLeft => exact toInt_shiftLeft l r
  | shiftRight =>
    have hfloor : (shiftRight.apply l r).toInt = shiftRight.onIntegers l.toInt r.toInt :=
      toInt_shiftRight l r
    rw [← hfloor, Int32.toInt_bmod]

/-! ## Division -/

variable {l r}

/-- The quotient is cut off, and reduced if it is no word. -/
theorem toInt_divide (h : r ≠ 0) :
    (divide.apply l r).toInt = (l.toInt.tdiv r.toInt).bmod Int32.size := by
  rw [apply, if_neg h]
  exact Int32.toInt_div l r

/-- The remainder of words needs no reduction. -/
theorem toInt_modulo (h : r ≠ 0) : (modulo.apply l r).toInt = l.toInt.tmod r.toInt := by
  rw [apply, if_neg h, Int32.toInt_mod]

/-- **The quotient times the divisor, with the remainder added, is the dividend**, as far as the
operators themselves go: where the quotient wraps, the product and the sum make up for it. -/
theorem apply_add_multiply_divide_modulo (h : r ≠ 0) :
    add.apply (multiply.apply (divide.apply l r) r) (modulo.apply l r) = l := by
  refine Int32.toInt_inj.mp ?_
  calc (add.apply (multiply.apply (divide.apply l r) r) (modulo.apply l r)).toInt
      = ((((l.toInt.tdiv r.toInt).bmod Int32.size * r.toInt).bmod Int32.size) +
          l.toInt.tmod r.toInt).bmod Int32.size := by
        rw [toInt_apply, onIntegers, toInt_apply multiply, onIntegers, toInt_divide h,
          toInt_modulo h]
    _ = (l.toInt.tdiv r.toInt * r.toInt + l.toInt.tmod r.toInt).bmod Int32.size := by
        rw [Int.bmod_mul_bmod, Int.bmod_add_bmod]
    _ = l.toInt := by rw [Int.tdiv_mul_add_tmod, Int32.toInt_bmod]

/-- **The remainder is smaller than the divisor.** -/
theorem natAbs_modulo_lt (h : r ≠ 0) :
    (modulo.apply l r).toInt.natAbs < r.toInt.natAbs := by
  have hr : r.toInt ≠ 0 := fun hzero => h (Int32.toInt_inj.mp hzero)
  rw [toInt_modulo h, Int.natAbs_tmod]
  exact Nat.mod_lt _ (Int.natAbs_pos.mpr hr)

/-- **The remainder has the sign of the dividend**, if it is not zero. -/
theorem modulo_eq_zero_or_sign_eq (h : r ≠ 0) :
    modulo.apply l r = 0 ∨ (modulo.apply l r).toInt.sign = l.toInt.sign := by
  have hsign := Int.sign_tmod l.toInt r.toInt
  rw [← toInt_modulo h] at hsign
  split at hsign
  · exact .inl (Int32.toInt_inj.mp (Int.sign_eq_zero_iff_zero.mp hsign))
  · exact .inr hsign

/-! ## The operators agree with exact arithmetic -/

/-- **The operators agree with exact arithmetic on every pair of words.** Sums, differences and
products are the exact ones, reduced to 32 bits with a sign. For a divisor that is not zero the
quotient is cut off toward zero and the remainder goes with it, both reduced; with wrapping, the
quotient times the divisor and the remainder make the dividend, and the remainder is smaller than
the divisor and zero or of the dividend's sign. The lowest word by -1 is the lowest word, with the
remainder zero. By zero both are zero. A shift moves by the Euclidean remainder of its right
operand modulo sixteen, which is its low four bits. To the left it multiplies by that power of two
and the product is reduced, to the right it divides and rounds down. -/
theorem apply_exact (l r : Int32) :
    ((add.apply l r).toInt = (l.toInt + r.toInt).bmod Int32.size ∧
      (subtract.apply l r).toInt = (l.toInt - r.toInt).bmod Int32.size ∧
      (multiply.apply l r).toInt = (l.toInt * r.toInt).bmod Int32.size) ∧
    (r ≠ 0 →
      (divide.apply l r).toInt = (l.toInt.tdiv r.toInt).bmod Int32.size ∧
      (modulo.apply l r).toInt = (l.toInt.tmod r.toInt).bmod Int32.size ∧
      add.apply (multiply.apply (divide.apply l r) r) (modulo.apply l r) = l ∧
      (modulo.apply l r).toInt.natAbs < r.toInt.natAbs ∧
      (modulo.apply l r = 0 ∨ (modulo.apply l r).toInt.sign = l.toInt.sign)) ∧
    (divide.apply Int32.minValue (-1) = Int32.minValue ∧ modulo.apply Int32.minValue (-1) = 0) ∧
    (r = 0 → divide.apply l r = 0 ∧ modulo.apply l r = 0) ∧
    ((shiftAmount r : Int) = r.toInt % 16 ∧ (and.apply r 15).toInt = shiftAmount r) ∧
    (shiftLeft.apply l r).toInt = (l.toInt * 2 ^ shiftAmount r).bmod Int32.size ∧
    (shiftRight.apply l r).toInt = l.toInt.fdiv (2 ^ shiftAmount r) := by
  refine ⟨⟨toInt_apply add l r, toInt_apply subtract l r, toInt_apply multiply l r⟩,
    fun h => ⟨toInt_divide h, ?_, apply_add_multiply_divide_modulo h, natAbs_modulo_lt h,
      modulo_eq_zero_or_sign_eq h⟩,
    ⟨rfl, rfl⟩, fun h => ⟨if_pos h, if_pos h⟩, ⟨shiftAmount_eq_emod r, toInt_and_fifteen r⟩,
    toInt_shiftLeft l r, toInt_shiftRight l r⟩
  rw [← toInt_modulo h, Int32.toInt_bmod]

/-- The lowest word by -1, and shifted by as much. -/
theorem apply_exact_lowest :
    let l := Int32.minValue
    let r : Int32 := -1
    r ≠ 0 ∧ (divide.apply l r).toInt = (0x80000000 : Int).bmod Int32.size ∧
      add.apply (multiply.apply (divide.apply l r) r) (modulo.apply l r) = l ∧
      shiftAmount r = 15 ∧ (shiftLeft.apply l r).toInt = 0 ∧
      (shiftRight.apply l r).toInt = -0x10000 := by
  intro l r
  have hr : r ≠ 0 := by decide
  have hamount : shiftAmount r = 15 := rfl
  obtain ⟨-, hdivision, -, -, -, hleft, hright⟩ := apply_exact l r
  obtain ⟨hquotient, -, hwhole, -⟩ := hdivision hr
  rw [hamount] at hleft hright
  exact ⟨hr, hquotient, hwhole, hamount, hleft, hright⟩

end Operation

end FormulaSynth
