import FormulaSynth.Proofs.Decimal.Reading
import Mathlib.Tactic.Ring
/-!
# The shortest decimal names its double

A decimal is taken for a double only if it lies in the interval of the numbers that round to it,
so whichever is taken rounds to the double. What has to be shown is that one is always found. On
the grid of seventeen digits the interval is longer than a step, so one of the two points around
the exact value is in it.
-/

namespace FormulaSynth

namespace Decimal

variable {m n : ℕ} {e t : ℤ}

/-- A power cut off at zero and the one with the opposite exponent differ by the power itself. -/
theorem zpow_mul_powFor {b : ℕ} (hb : 0 < b) (z : ℤ) :
    (b : ℚ) ^ z * powFor b (-z) = powFor b z := by
  have hne : (b : ℚ) ≠ 0 := by exact_mod_cast hb.ne'
  have hz : z + ((-z).toNat : ℤ) = z.toNat := by omega
  show (b : ℚ) ^ z * (b ^ (-z).toNat : ℕ) = (b ^ z.toNat : ℕ)
  push_cast
  rw [← zpow_natCast, ← zpow_add₀ hne, hz, zpow_natCast]

theorem powFor_pos {b : ℕ} (hb : 0 < b) (z : ℤ) : 0 < powFor b z :=
  Nat.pow_pos hb

/-- A number inside the interval of those that round to a double. -/
theorem roundsTo_of_lt {v : ℚ}
    (hlow : (m - if m = 2 ^ 52 ∧ -1074 < e then 1 / 4 else 1 / 2) * 2 ^ e < v)
    (hhigh : v < (m + 1 / 2) * 2 ^ e) : RoundsTo m e v := by
  refine ⟨hlow.le, hhigh.le, fun hodd => ⟨?_, hhigh⟩⟩
  rwa [if_neg] at hlow
  rintro ⟨rfl, -⟩
  exact absurd hodd (by decide)

namespace Binary

/-- A double by its mantissa and its exponent. -/
def ofParts (m : ℕ) (e : ℤ) : Binary :=
  ⟨m, e, decide (m = 2 ^ 52 ∧ -1074 < e)⟩

/-! ## One grid -/

/-- A quarter of the last place of the mantissa, over the denominator of a grid. -/
def quarter (x : Binary) (t : ℤ) : ℕ := powFor 2 (x.exponent - 2) * powFor 10 (-t)

/-- A step of a grid, over its denominator. -/
def step (x : Binary) (t : ℤ) : ℕ := powFor 10 t * powFor 2 (2 - x.exponent)

/-- Whether a point, over the denominator of a grid, is in the interval that rounds to the
double. -/
def fits (x : Binary) (t : ℤ) (p : ℕ) : Bool :=
  let low := (4 * x.mantissa - if x.narrow then 1 else 2) * x.quarter t
  let high := (4 * x.mantissa + 2) * x.quarter t
  if x.mantissa % 2 = 0 then low ≤ p && p ≤ high else low < p && p < high

/-- The last point of a grid up to the exact value. -/
def below (x : Binary) (t : ℤ) : ℕ := 4 * x.mantissa * x.quarter t / x.step t

theorem onGrid?_eq (x : Binary) (t : ℤ) : x.onGrid? t =
    if x.fits t (x.below t * x.step t) && (!x.fits t ((x.below t + 1) * x.step t) ||
        4 * x.mantissa * x.quarter t - x.below t * x.step t <
          (x.below t + 1) * x.step t - 4 * x.mantissa * x.quarter t)
    then some ⟨x.below t, t⟩
    else if x.fits t ((x.below t + 1) * x.step t) then some ⟨x.below t + 1, t⟩
    else none := rfl

/-- What is found on a grid fits. -/
theorem fits_of_onGrid? {x : Binary} {s : Scientific} (h : x.onGrid? t = some s) :
    s.exponent = t ∧ x.fits t (s.digits * x.step t) = true := by
  rw [onGrid?_eq] at h
  split at h
  · next hfits =>
    cases h
    exact ⟨rfl, (Bool.and_eq_true_iff.mp hfits).1⟩
  · split at h
    · next hfits =>
      cases h
      exact ⟨rfl, hfits⟩
    · cases h

/-- Where nothing is found on a grid, neither point around the exact value fits. -/
theorem fits_eq_false_of_onGrid? {x : Binary} (h : x.onGrid? t = none) :
    x.fits t (x.below t * x.step t) = false ∧ x.fits t ((x.below t + 1) * x.step t) = false := by
  rw [onGrid?_eq] at h
  split at h
  · cases h
  next hbelow =>
  split at h
  · cases h
  next habove =>
  rw [Bool.not_eq_true] at habove
  rw [habove] at hbelow
  simpa [habove] using hbelow

section Parts

variable (m e t)

/-- A quarter of the last place and a step are over one denominator. -/
theorem exists_denominator : ∃ d : ℚ, 0 < d ∧ (ofParts m e).quarter t = 2 ^ e / 4 * d ∧
    (ofParts m e).step t = 10 ^ t * d := by
  have hquarter : (2 : ℚ) ^ (e - 2) * powFor 2 (2 - e) = powFor 2 (e - 2) := by
    rw [← neg_sub e 2]
    exact zpow_mul_powFor two_pos (e - 2)
  have hfour : (2 : ℚ) ^ (e - 2) = 2 ^ e / 4 := by
    rw [zpow_sub₀ two_ne_zero]
    norm_num
  have hstep : (10 : ℚ) ^ t * powFor 10 (-t) = powFor 10 t := zpow_mul_powFor (by decide) t
  refine ⟨powFor 2 (2 - e) * powFor 10 (-t), ?_, ?_, ?_⟩
  · exact_mod_cast Nat.mul_pos (powFor_pos two_pos _) (powFor_pos (by decide) _)
  · rw [quarter, ofParts, Nat.cast_mul, ← hquarter, hfour, mul_assoc]
  · rw [step, ofParts, Nat.cast_mul, ← hstep, mul_assoc, mul_comm (powFor 10 (-t) : ℚ)]

theorem step_pos : 0 < (ofParts m e).step t :=
  Nat.mul_pos (powFor_pos (by decide) _) (powFor_pos two_pos _)

variable (p n : ℕ)

/-- Quarters of the last place and steps of a grid, compared over the denominator. -/
theorem mul_quarter_le_iff : p * (ofParts m e).quarter t ≤ n * (ofParts m e).step t ↔
    (p / 4 * 2 ^ e : ℚ) ≤ n * 10 ^ t := by
  obtain ⟨d, hd, hquarter, hstep⟩ := exists_denominator m e t
  rw [← Nat.cast_le (α := ℚ), Nat.cast_mul, Nat.cast_mul, hquarter, hstep, ← mul_assoc,
    ← mul_assoc, mul_le_mul_iff_of_pos_right hd, mul_div_left_comm, mul_comm (2 ^ e : ℚ)]

theorem le_mul_quarter_iff : n * (ofParts m e).step t ≤ p * (ofParts m e).quarter t ↔
    (n * 10 ^ t : ℚ) ≤ p / 4 * 2 ^ e := by
  obtain ⟨d, hd, hquarter, hstep⟩ := exists_denominator m e t
  rw [← Nat.cast_le (α := ℚ), Nat.cast_mul, Nat.cast_mul, hquarter, hstep, ← mul_assoc,
    ← mul_assoc, mul_le_mul_iff_of_pos_right hd, mul_div_left_comm, mul_comm (2 ^ e : ℚ)]

end Parts

/-- **What fits is what rounds to the double.** -/
theorem fits_iff (hm : 0 < m) : (ofParts m e).fits t (n * (ofParts m e).step t) = true ↔
    RoundsTo m e (n * 10 ^ t) := by
  obtain ⟨c, hc⟩ : ∃ c, c = if (ofParts m e).narrow then 1 else 2 := ⟨_, rfl⟩
  have hlow : ((4 * m - c : ℕ) / 4 : ℚ) = m - if m = 2 ^ 52 ∧ -1074 < e then 1 / 4 else 1 / 2 := by
    have hle : c ≤ 4 * m := by
      split at hc <;> omega
    rw [Nat.cast_sub hle, hc]
    simp only [ofParts, decide_eq_true_iff]
    split <;> push_cast <;> ring
  have hhigh : ((4 * m + 2 : ℕ) / 4 : ℚ) = m + 1 / 2 := by
    push_cast
    ring
  have hfits : (ofParts m e).fits t (n * (ofParts m e).step t) =
      if m % 2 = 0 then
        decide ((4 * m - c) * (ofParts m e).quarter t ≤ n * (ofParts m e).step t) &&
          decide (n * (ofParts m e).step t ≤ (4 * m + 2) * (ofParts m e).quarter t)
      else
        decide ((4 * m - c) * (ofParts m e).quarter t < n * (ofParts m e).step t) &&
          decide (n * (ofParts m e).step t < (4 * m + 2) * (ofParts m e).quarter t) := by
    rw [hc]
    rfl
  rw [hfits]
  split
  · next heven =>
    rw [Bool.and_eq_true, decide_eq_true_iff, decide_eq_true_iff, mul_quarter_le_iff,
      le_mul_quarter_iff, hlow, hhigh]
    exact ⟨fun h => ⟨h.1, h.2, fun hodd => by omega⟩, fun h => ⟨h.lower, h.upper⟩⟩
  · next hodd =>
    have hodd : m % 2 = 1 := Nat.mod_two_ne_zero.mp hodd
    have hnarrow : ¬(m = 2 ^ 52 ∧ -1074 < e) := by
      rintro ⟨rfl, -⟩
      exact absurd hodd (by decide)
    rw [Bool.and_eq_true, decide_eq_true_iff, decide_eq_true_iff, ← not_le, ← not_le,
      mul_quarter_le_iff, le_mul_quarter_iff, hlow, hhigh, if_neg hnarrow, not_le, not_le]
    refine ⟨fun h => ⟨?_, h.2.le, fun _ => h⟩, fun h => h.odd hodd⟩
    rw [if_neg hnarrow]
    exact h.1.le

/-! ## The magnitude -/

theorem value_eq (m : ℕ) (e : ℤ) : ((ofParts m e).numerator : ℚ) =
    m * 2 ^ e * (ofParts m e).denominator := by
  have hpower : (2 : ℚ) ^ e * powFor 2 (-e) = powFor 2 e := zpow_mul_powFor two_pos e
  rw [numerator, denominator, ofParts, Nat.cast_mul, mul_assoc, hpower]

/-- **The magnitude** is that of the exact value, or more than it. -/
theorem ten_pow_magnitude_le (hm : 0 < m) :
    (10 : ℚ) ^ ((ofParts m e).magnitude - 1) ≤ m * 2 ^ e := by
  have hdenominator : 0 < (ofParts m e).denominator := powFor_pos two_pos _
  have hnumerator : 0 < (ofParts m e).numerator := Nat.mul_pos hm (powFor_pos two_pos _)
  have hvalue := value_eq m e
  unfold magnitude
  generalize (ofParts m e).denominator = d at *
  generalize (ofParts m e).numerator = n at *
  have hd : (0 : ℚ) < d := by exact_mod_cast hdenominator
  refine le_of_mul_le_mul_right ?_ hd
  rw [← hvalue]
  split
  · next hle =>
    -- the value is at least one, and its whole part has the digits
    have hcount := digitCount_pos (n / d)
    have hwhole : 10 ^ (digitCount (n / d) - 1) * d ≤ n :=
      (Nat.mul_le_mul_right d (ten_pow_le (Nat.div_pos hle hdenominator))).trans
        (Nat.div_mul_le_self n d)
    have hexponent : (digitCount (n / d) : ℤ) - 1 = (digitCount (n / d) - 1 : ℕ) := by omega
    rw [hexponent, zpow_natCast]
    exact_mod_cast hwhole
  · next hlt =>
    -- the value is below one, and so many times it fits into one
    have hfits : d ≤ n * 10 ^ digitCount ((d - 1) / n) := by
      have hquotient : d - 1 < n * ((d - 1) / n + 1) := Nat.lt_mul_div_succ _ hnumerator
      have hnext : n * ((d - 1) / n + 1) ≤ n * 10 ^ digitCount ((d - 1) / n) :=
        Nat.mul_le_mul_left n (lt_ten_pow_digitCount _)
      omega
    have hexponent : 1 - (digitCount ((d - 1) / n) : ℤ) - 1 = -digitCount ((d - 1) / n) := by omega
    rw [hexponent, zpow_neg, zpow_natCast, inv_mul_le_iff₀ (pow_pos (by norm_num) _), mul_comm]
    exact_mod_cast hfits

/-! ## The grids together -/

/-- **A grid is not missed** if its step is shorter than the interval. -/
theorem onGrid?_ne_none (hm : 0 < m)
    (hstep : (10 : ℚ) ^ t < (1 / 2 + if m = 2 ^ 52 ∧ -1074 < e then 1 / 4 else 1 / 2) * 2 ^ e) :
    (ofParts m e).onGrid? t ≠ none := by
  intro hnone
  have hpos : (0 : ℚ) < 2 ^ e := zpow_pos two_pos e
  have hfour : ((4 * m : ℕ) / 4 : ℚ) = m := by
    push_cast
    ring
  obtain ⟨hbelow, habove⟩ := fits_eq_false_of_onGrid? hnone
  rw [← Bool.not_eq_true, fits_iff hm] at hbelow habove
  generalize hb : (ofParts m e).below t = b at hbelow habove
  have hle : (b * 10 ^ t : ℚ) ≤ m * 2 ^ e := by
    rw [← hfour, ← le_mul_quarter_iff, ← hb]
    exact Nat.div_mul_le_self _ _
  have hlt : (m * 2 ^ e : ℚ) < (b + 1 : ℕ) * 10 ^ t := by
    rw [← hfour, ← not_le, ← le_mul_quarter_iff, ← hb, not_le, mul_comm (_ + 1)]
    exact Nat.lt_mul_div_succ _ (step_pos m e t)
  -- the points around the exact value are both outside, so the interval is between them
  have hlow : (b * 10 ^ t : ℚ) ≤ (m - if m = 2 ^ 52 ∧ -1074 < e then 1 / 4 else 1 / 2) * 2 ^ e :=
    not_lt.mp fun h => hbelow (roundsTo_of_lt h (hle.trans_lt (by linarith)))
  have hhigh : ((m + 1 / 2) * 2 ^ e : ℚ) ≤ (b + 1 : ℕ) * 10 ^ t := by
    refine not_lt.mp fun h => habove (roundsTo_of_lt (lt_of_le_of_lt ?_ hlt) h)
    refine mul_le_mul_of_nonneg_right ?_ hpos.le
    split <;> linarith
  push_cast at hhigh
  linarith

/-- The grid of seventeen digits has a short enough step. -/
theorem ten_pow_lt (hd : IsDouble m e) : (10 : ℚ) ^ ((ofParts m e).magnitude - 17) <
    (1 / 2 + if m = 2 ^ 52 ∧ -1074 < e then 1 / 4 else 1 / 2) * 2 ^ e := by
  have hpos : (0 : ℚ) < 2 ^ e := zpow_pos two_pos e
  have hm : (m : ℚ) ≤ 2 ^ 53 := by exact_mod_cast hd.lt.le
  have hexponent : (ofParts m e).magnitude - 17 = (ofParts m e).magnitude - 1 - 16 := by omega
  rw [hexponent, zpow_sub₀ (by norm_num), zpow_ofNat, div_lt_iff₀ (by norm_num)]
  refine (ten_pow_magnitude_le hd.pos).trans_lt ?_
  rw [mul_right_comm]
  refine mul_lt_mul_of_pos_right ?_ hpos
  split
  · next hnarrow =>
    rw [hnarrow.1]
    norm_num
  · norm_num at hm ⊢
    linarith

/-- **Seventeen digits are enough**: the shortest decimal is found on a grid. -/
theorem exists_onGrid?_eq_shortest (hd : IsDouble m e) :
    ∃ t, (ofParts m e).onGrid? t = some (ofParts m e).shortest := by
  unfold shortest
  cases hfound : (List.range 17).findSome? fun n =>
      (ofParts m e).onGrid? ((ofParts m e).magnitude - (n + 1 : ℕ)) with
  | none =>
    have hlast := List.findSome?_eq_none_iff.mp hfound 16 (List.mem_range.mpr (by decide))
    exact absurd hlast (onGrid?_ne_none hd.pos (ten_pow_lt hd))
  | some s =>
    obtain ⟨n, -, hn⟩ := List.exists_of_findSome?_eq_some hfound
    exact ⟨_, hn⟩

/-- **The shortest decimal of a double rounds to it.** -/
theorem roundsTo_shortest (hd : IsDouble m e) :
    RoundsTo m e ((ofParts m e).shortest.digits * 10 ^ (ofParts m e).shortest.exponent) := by
  obtain ⟨t, ht⟩ := exists_onGrid?_eq_shortest hd
  obtain ⟨hexponent, hfits⟩ := fits_of_onGrid? ht
  rw [hexponent]
  exact (fits_iff hd.pos).mp hfits

/-- The shortest decimal of a positive double is no zero. -/
theorem digits_shortest_pos (hd : IsDouble m e) : 0 < (ofParts m e).shortest.digits := by
  refine Nat.pos_of_ne_zero fun hzero => ?_
  have hleast := (roundsTo_shortest hd).least_le hd
  rw [hzero, Nat.cast_zero, zero_mul] at hleast
  exact not_lt.mpr hleast (one_div_pos.mpr (pow_pos two_pos _))

end Binary

end Decimal

end FormulaSynth
