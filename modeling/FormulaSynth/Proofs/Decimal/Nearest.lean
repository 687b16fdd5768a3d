import FormulaSynth.Decimal.Shortest
import Mathlib.Algebra.Order.Field.Power
import Mathlib.Data.Rat.Cast.Order
import Mathlib.Tactic.Linarith
import Mathlib.Tactic.Positivity
import Mathlib.Tactic.FieldSimp
/-!
# Numbers that round to a double

A double stands for all the numbers that round to it. These lie between the points halfway to its
neighbours, `Decimal.RoundsTo`, and a point halfway counts if the mantissa is even. What is shown
here is that rounding agrees: of a quotient that lies between those points, dividing makes the
double (`Decimal.div_eq`).

The exact quotient is kept during the division as a whole number of places and two residual bits.
What these stand for, `Decimal.Stands`, is the invariant of every shift. Below a power of two the
doubles are twice as close, and there a number may be rounded up to the power only after it has
been shifted for the closer ones. That is why the places are shifted a second time after rounding,
and the proof has the two cases.
-/

namespace FormulaSynth

namespace Decimal

open Float.Model Float.Model.UnpackedFloat

/-! ## Residual bits -/

/-- **What a mantissa with residual bits stands for**: a number between the mantissa and the next
one, where the bits tell on which side of the middle it lies. -/
def Stands (em : ExtendedMantissa) (v : ℚ) : Prop :=
  match em.roundBit, em.stickyBit with
  | false, false => v = em.mantissa
  | false, true => em.mantissa < v ∧ v < em.mantissa + 1 / 2
  | true, false => v = em.mantissa + 1 / 2
  | true, true => em.mantissa + 1 / 2 < v ∧ v < em.mantissa + 1

/-- A quotient of natural numbers is stood for by what is left of the division. -/
theorem stands_div (n : ℕ) {d : ℕ} (hd : 0 < d) :
    Stands (.ofMantissaAndAccuracy (n / d) (accuracyOfFraction (n % d) d)) (n / d) := by
  have hpos : (0 : ℚ) < d := by exact_mod_cast hd
  have hparts : (d : ℚ) * (n / d : ℕ) + (n % d : ℕ) = n := by exact_mod_cast Nat.div_add_mod n d
  have hlt : n % d < d := Nat.mod_lt n hd
  have hvalue : (n : ℚ) / d = (n / d : ℕ) + (n % d : ℕ) / d := by
    rw [← hparts, add_div, mul_div_cancel_left₀ _ hpos.ne']
  rw [hvalue]
  generalize n / d = q, n % d = r at hlt
  unfold accuracyOfFraction
  split
  · next hr =>
    show (q : ℚ) + (r : ℚ) / d = q
    rw [hr, Nat.cast_zero, zero_div, add_zero]
  next hr =>
  have hrpos : (0 : ℚ) < r := by exact_mod_cast Nat.pos_of_ne_zero hr
  have hrlt : (r : ℚ) < d := by exact_mod_cast hlt
  -- which side of the middle the rest is on
  cases hcompare : compare (2 * r) d with
  | lt =>
    have h : (2 * r : ℚ) < d := by exact_mod_cast Nat.compare_eq_lt.mp hcompare
    show (q : ℚ) < q + r / d ∧ q + (r : ℚ) / d < q + 1 / 2
    rw [lt_add_iff_pos_right, add_lt_add_iff_left, div_lt_iff₀ hpos]
    exact ⟨div_pos hrpos hpos, by linarith⟩
  | eq =>
    have h : (2 * r : ℚ) = d := by exact_mod_cast Nat.compare_eq_eq.mp hcompare
    show (q : ℚ) + (r : ℚ) / d = q + 1 / 2
    rw [add_right_inj, div_eq_iff hpos.ne']
    linarith
  | gt =>
    have h : (d : ℚ) < 2 * r := by exact_mod_cast Nat.compare_eq_gt.mp hcompare
    show (q : ℚ) + 1 / 2 < q + r / d ∧ q + (r : ℚ) / d < q + 1
    rw [add_lt_add_iff_left, add_lt_add_iff_left, lt_div_iff₀ hpos, div_lt_one hpos]
    exact ⟨by linarith, hrlt⟩

/-- Natural numbers less than one apart are equal. -/
theorem eq_of_near {n m : ℕ} (hle : (n : ℚ) < m + 1) (hge : (m : ℚ) < n + 1) : n = m := by
  have hle : n < m + 1 := by exact_mod_cast hle
  have hge : m < n + 1 := by exact_mod_cast hge
  omega

/-- A number is stood for by itself. -/
theorem stands_exact (m : ℕ) : Stands (.ofMantissaAndAccuracy m .exact) m := rfl

namespace Stands

variable {em : ExtendedMantissa} {v : ℚ}

/-- Half the number is stood for after a shift. -/
theorem shiftRightOne (h : Stands em v) : Stands em.shiftRightOne (v / 2) := by
  obtain ⟨m, round, sticky⟩ := em
  have hparts : 2 * (m / 2) + m % 2 = m := Nat.div_add_mod m 2
  have hm : (2 : ℚ) * (m / 2 : ℕ) + (m % 2 : ℕ) = m := by exact_mod_cast hparts
  have hbit : m % 2 = 0 ∨ m % 2 = 1 := Nat.mod_two_eq_zero_or_one m
  obtain hbit | hbit := hbit <;> cases round <;> cases sticky <;>
    simp only [Stands, ExtendedMantissa.shiftRightOne, hbit] at h hm ⊢ <;>
    simp at h hm ⊢ <;> grind

/-- The number shifted by any number of places. -/
theorem shiftRight (h : Stands em v) (n : ℕ) : Stands (em >>> n) (v / 2 ^ n) := by
  show Stands (n.repeat ExtendedMantissa.shiftRightOne em) _
  induction n with
  | zero => simpa [Nat.repeat] using h
  | succ n ih =>
    rw [Nat.repeat, pow_succ, ← div_div]
    exact ih.shiftRightOne

/-- The mantissa is the number without its fraction. -/
theorem bounds (h : Stands em v) : em.mantissa ≤ v ∧ v < em.mantissa + 1 := by
  obtain ⟨m, round, sticky⟩ := em
  cases round <;> cases sticky <;> simp only [Stands] at h ⊢ <;> constructor <;> linarith

/-- **The mantissa is rounded to the number's neighbour**, in the middle to the even one. -/
theorem roundedMantissa_eq {m : ℕ} (h : Stands em v) (hlow : (m : ℚ) - 1 / 2 ≤ v)
    (hhigh : v ≤ m + 1 / 2) (hodd : m % 2 = 1 → (m : ℚ) - 1 / 2 < v ∧ v < m + 1 / 2) :
    em.roundedMantissa = m := by
  obtain ⟨n, round, sticky⟩ := em
  cases round <;> cases sticky
  case false.false =>
    have hv : v = n := h
    show n = m
    exact eq_of_near (by linarith) (by linarith)
  case false.true =>
    obtain ⟨hv, hv'⟩ : (n : ℚ) < v ∧ v < n + 1 / 2 := h
    show n = m
    exact eq_of_near (by linarith) (by linarith)
  case true.true =>
    obtain ⟨hv, hv'⟩ : (n : ℚ) + 1 / 2 < v ∧ v < n + 1 := h
    show n + 1 = m
    exact eq_of_near (by push_cast; linarith) (by push_cast; linarith)
  case true.false =>
    -- in the middle the nearer one of the two is the even one
    have hv : v = n + 1 / 2 := h
    have heven : m % 2 = 0 := by
      refine (Nat.mod_two_eq_zero_or_one m).resolve_right fun hm => ?_
      obtain ⟨hlow, hhigh⟩ := hodd hm
      have hlt : (n : ℚ) < m := by linarith
      have heq : n = m := eq_of_near (by linarith) (by linarith)
      exact absurd heq (Nat.cast_lt.mp hlt).ne
    show n + n % 2 = m
    have hle : (n : ℚ) < (m + 1 : ℕ) := by push_cast; linarith
    have hge : (m : ℚ) < (n + 2 : ℕ) := by push_cast; linarith
    rw [Nat.cast_lt] at hle hge
    omega

end Stands

/-! ## Rounding to a double -/

/-- **The mantissa and the exponent of a double** that is neither zero nor infinite. -/
structure IsDouble (m : ℕ) (e : ℤ) : Prop where
  pos : 0 < m
  lt : m < 2 ^ 53
  le : -1074 ≤ e
  normal : 2 ^ 52 ≤ m ∨ e = -1074

/-- **A number that rounds to a double.** It is at most half the distance to a neighbour away,
and where it is just half as far the mantissa is even. A power of two has its lower neighbour
twice as near, unless that is among the least doubles. -/
structure RoundsTo (m : ℕ) (e : ℤ) (v : ℚ) : Prop where
  lower : (m - if m = 2 ^ 52 ∧ -1074 < e then 1 / 4 else 1 / 2) * 2 ^ e ≤ v
  upper : v ≤ (m + 1 / 2) * 2 ^ e
  odd : m % 2 = 1 → (m - 1 / 2) * 2 ^ e < v ∧ v < (m + 1 / 2) * 2 ^ e

theorem two_zpow_add (n : ℕ) (e : ℤ) : (2 : ℚ) ^ (n + e) = 2 ^ n * 2 ^ e := by
  rw [zpow_add₀ two_ne_zero, zpow_natCast]

theorem mantissa_ofMantissaAndAccuracy (q : ℕ) (acc : Accuracy) :
    (ExtendedMantissa.ofMantissaAndAccuracy q acc).mantissa = q := by
  unfold ExtendedMantissa.ofMantissaAndAccuracy
  split <;> rfl

theorem targetExponent_eq (t : ℤ) : Format.binary64.targetExponent t = max (t - 53) (-1074) :=
  rfl

/-- The exponent of a double is the one for its mantissa. -/
theorem IsDouble.targetExponent_eq {m : ℕ} {e : ℤ} (h : IsDouble m e) :
    Format.binary64.targetExponent (totalExponent m e) = e := by
  have hlog : m.log2 < 53 := (Nat.log2_lt h.pos.ne').mpr h.lt
  have hle := h.le
  rw [Decimal.targetExponent_eq, totalExponent]
  obtain hnormal | hleast := h.normal
  · have hlog' : 52 ≤ m.log2 := (Nat.le_log2 h.pos.ne').mpr hnormal
    omega
  · omega

section Shift

variable {q : ℕ} {te e : ℤ} {acc : Accuracy} {v : ℚ}

/-- A number lies below the power of two that its mantissa lies below. -/
theorem lt_two_zpow_log2 (hv : Stands (.ofMantissaAndAccuracy q acc) (v / 2 ^ te)) :
    v < 2 ^ (q.log2 + 1 + te : ℤ) := by
  have hpos : (0 : ℚ) < 2 ^ te := zpow_pos two_pos te
  have hceil := hv.bounds.2
  rw [mantissa_ofMantissaAndAccuracy, div_lt_iff₀ hpos] at hceil
  have hq : (q + 1 : ℚ) ≤ 2 ^ (q.log2 + 1) := by exact_mod_cast Nat.lt_log2_self
  calc v < (q + 1) * 2 ^ te := hceil
    _ ≤ 2 ^ (q.log2 + 1) * 2 ^ te := mul_le_mul_of_nonneg_right hq hpos.le
    _ = 2 ^ (q.log2 + 1 + te : ℤ) := (two_zpow_add (q.log2 + 1) te).symm

/-- A number is as great as the power of two that its mantissa reaches. -/
theorem two_zpow_log2_le (hv : Stands (.ofMantissaAndAccuracy q acc) (v / 2 ^ te)) (hq : q ≠ 0) :
    2 ^ (q.log2 + te : ℤ) ≤ v := by
  have hpos : (0 : ℚ) < 2 ^ te := zpow_pos two_pos te
  have hfloor := hv.bounds.1
  rw [mantissa_ofMantissaAndAccuracy, le_div_iff₀ hpos] at hfloor
  have hq : (2 ^ q.log2 : ℚ) ≤ q := by exact_mod_cast Nat.log2_self_le hq
  calc (2 : ℚ) ^ (q.log2 + te : ℤ) = 2 ^ q.log2 * 2 ^ te := two_zpow_add _ te
    _ ≤ q * 2 ^ te := mul_le_mul_of_nonneg_right hq hpos.le
    _ ≤ v := hfloor

/-- **A number between two powers of two** is shifted to the exponent of the doubles there. -/
theorem shiftToTargetExponent_eq (hv : Stands (.ofMantissaAndAccuracy q acc) (v / 2 ^ te))
    (hte : te ≤ -1074 ∨ 2 ^ 52 ≤ q) (he : -1074 ≤ e) (hlow : 2 ^ (52 + e) ≤ v ∨ e = -1074)
    (hhigh : v < 2 ^ (53 + e)) :
    ∃ em, shiftToTargetExponent Format.binary64 q te acc = (em, e) ∧ Stands em (v / 2 ^ e) := by
  have hlower : q ≠ 0 → (q.log2 : ℤ) + te < 53 + e := fun hq =>
    (zpow_lt_zpow_iff_right₀ (one_lt_two (α := ℚ))).mp ((two_zpow_log2_le hv hq).trans_lt hhigh)
  have hupper : 52 + e < q.log2 + 1 + te ∨ e = -1074 :=
    hlow.imp_left fun h =>
      (zpow_lt_zpow_iff_right₀ (one_lt_two (α := ℚ))).mp (h.trans_lt (lt_two_zpow_log2 hv))
  have hnormal : 2 ^ 52 ≤ q → 52 ≤ q.log2 := fun h =>
    (Nat.le_log2 (Nat.ne_of_gt ((Nat.two_pow_pos 52).trans_le h))).mpr h
  have hzero : q = 0 → q.log2 = 0 := by
    rintro rfl
    rfl
  have htarget : Format.binary64.targetExponent (totalExponent q te) = e := by
    rw [targetExponent_eq, totalExponent]
    omega
  have hle : te ≤ e := by omega
  refine ⟨_, Prod.ext_iff.mpr ⟨rfl, ?_⟩, ?_⟩
  · rw [shiftToTargetExponent, htarget, shiftToExponent]
    show te + ((e - te).toNat : ℤ) = e
    omega
  · rw [shiftToTargetExponent, htarget, shiftToExponent]
    have hshift : v / 2 ^ e = v / 2 ^ te / 2 ^ (e - te).toNat := by
      rw [div_div, ← zpow_natCast, ← zpow_add₀ two_ne_zero, Int.toNat_of_nonneg (by omega)]
      congr 2
      omega
    rw [hshift]
    exact hv.shiftRight _

end Shift

theorem mantissa_shiftRight (em : ExtendedMantissa) (n : ℕ) :
    (em >>> n).mantissa = em.mantissa / 2 ^ n := by
  show (n.repeat ExtendedMantissa.shiftRightOne em).mantissa = _
  induction n with
  | zero => rw [pow_zero, Nat.div_one]; rfl
  | succ n ih =>
    rw [Nat.repeat, pow_succ, ← Nat.div_div_eq_div_mul, ← ih]
    rfl

section Round

variable {s : Sign} {q m : ℕ} {te e : ℤ} {acc : Accuracy} {v : ℚ}

/-- Rounding is shifting, taking the neighbour, and shifting once more if that has become too
long. -/
theorem roundWithAccuracy_of_shift {em : ExtendedMantissa} {e₁ : ℤ} {n : ℕ}
    (hshift : shiftToTargetExponent Format.binary64 q te acc = (em, e₁))
    (htarget : Format.binary64.targetExponent (totalExponent em.roundedMantissa e₁) = e₁ + n)
    (hm : em.roundedMantissa / 2 ^ n = m) (he : e₁ + n = e) (hpos : 0 < m) :
    roundWithAccuracy Format.binary64 s q te acc = .finite s m e hpos := by
  have hn : (e₁ + n - e₁).toNat = n := by omega
  have hmantissa :
      (ExtendedMantissa.ofMantissaAndAccuracy em.roundedMantissa .exact >>> n).mantissa = m := by
    rw [mantissa_shiftRight]
    exact hm
  unfold roundWithAccuracy
  rw [hshift]
  dsimp only
  rw [shiftToTargetExponent, htarget, shiftToExponent, hn]
  dsimp only
  subst he hmantissa
  exact dif_neg hpos.ne'

/-- A number that rounds to a double and has its exponent is rounded to it. -/
theorem roundWithAccuracy_of_le (hv : Stands (.ofMantissaAndAccuracy q acc) (v / 2 ^ te))
    (hte : te ≤ -1074 ∨ 2 ^ 52 ≤ q) (hd : IsDouble m e) (hround : RoundsTo m e v)
    (hnear : 2 ^ (52 + e) ≤ v ∨ e = -1074) :
    roundWithAccuracy Format.binary64 s q te acc = .finite s m e hd.pos := by
  have hpos : (0 : ℚ) < 2 ^ e := zpow_pos two_pos e
  have hhigh : v < 2 ^ (53 + e) := by
    have hm : (m : ℚ) + 1 ≤ 2 ^ 53 := by exact_mod_cast hd.lt
    calc v ≤ (m + 1 / 2) * 2 ^ e := hround.upper
      _ < 2 ^ 53 * 2 ^ e := mul_lt_mul_of_pos_right (by linarith) hpos
      _ = 2 ^ (53 + e) := (two_zpow_add 53 e).symm
  obtain ⟨em, hshift, hem⟩ := shiftToTargetExponent_eq hv hte hd.le hnear hhigh
  have hlow : (m - 1 / 2) * 2 ^ e ≤ v := by
    have hlower := hround.lower
    split at hlower
    · next hpower =>
      have hm : (m : ℚ) = 2 ^ 52 := by exact_mod_cast hpower.1
      have hle : (2 : ℚ) ^ 52 * 2 ^ e ≤ v :=
        (two_zpow_add 52 e).symm.trans_le (hnear.resolve_right hpower.2.ne')
      rw [hm, sub_mul]
      linarith
    · exact hlower
  have hrounded : em.roundedMantissa = m := by
    refine hem.roundedMantissa_eq ?_ ?_ fun hodd => ?_
    · rwa [le_div_iff₀ hpos]
    · rw [div_le_iff₀ hpos]
      exact hround.upper
    · rw [lt_div_iff₀ hpos, div_lt_iff₀ hpos]
      exact hround.odd hodd
  refine roundWithAccuracy_of_shift (n := 0) hshift ?_ ?_ (by simp) hd.pos
  · rw [hrounded, hd.targetExponent_eq]
    simp
  · rw [hrounded, pow_zero, Nat.div_one]

/-- A number below the doubles of an exponent can round to the first of them only. -/
theorem RoundsTo.eq_two_pow (hround : RoundsTo m e v) (hnormal : 2 ^ 52 ≤ m)
    (hbelow : v < 2 ^ (52 + e)) : m = 2 ^ 52 := by
  have hlower := hround.lower
  have hbelow : v < 2 ^ 52 * 2 ^ e := hbelow.trans_eq (two_zpow_add 52 e)
  by_contra hne
  rw [if_neg (fun h => hne h.1)] at hlower
  have hm : (2 : ℚ) ^ 52 + 1 ≤ m := by exact_mod_cast Nat.lt_of_le_of_ne hnormal (Ne.symm hne)
  have hle : (2 : ℚ) ^ 52 * 2 ^ e ≤ (m - 1 / 2) * 2 ^ e :=
    mul_le_mul_of_nonneg_right (by linarith) (zpow_pos two_pos e).le
  linarith

/-- A number that is just below a power of two, and there the doubles are closer, is rounded to
the power. -/
theorem roundWithAccuracy_of_lt (hv : Stands (.ofMantissaAndAccuracy q acc) (v / 2 ^ te))
    (hte : te ≤ -1074 ∨ 2 ^ 52 ≤ q) (he : -1074 < e) (hround : RoundsTo (2 ^ 52) e v)
    (hbelow : v < 2 ^ (52 + e)) :
    roundWithAccuracy Format.binary64 s q te acc = .finite s (2 ^ 52) e (Nat.two_pow_pos 52) := by
  have hpos : (0 : ℚ) < 2 ^ (e - 1) := zpow_pos two_pos _
  have hhalf : (2 : ℚ) ^ e = 2 * 2 ^ (e - 1) := by
    rw [← zpow_one_add₀ two_ne_zero, add_sub_cancel]
  have hlower := hround.lower
  rw [if_pos ⟨rfl, he⟩, hhalf] at hlower
  push_cast at hlower
  have hbelow : v < 2 ^ 52 * 2 ^ e := hbelow.trans_eq (two_zpow_add 52 e)
  rw [hhalf] at hbelow
  -- with the exponent of the closer doubles it is rounded to a mantissa that is too long
  have hlow : (2 : ℚ) ^ (52 + (e - 1)) ≤ v := (two_zpow_add 52 (e - 1)).trans_le (by linarith)
  have hhigh : v < 2 ^ (53 + (e - 1)) := lt_of_lt_of_eq (by linarith) (two_zpow_add 53 (e - 1)).symm
  obtain ⟨em, hshift, hem⟩ := shiftToTargetExponent_eq hv hte (by omega) (.inl hlow) hhigh
  have hrounded : em.roundedMantissa = 2 ^ 53 := by
    refine hem.roundedMantissa_eq ?_ ?_ (by norm_num)
    · rw [le_div_iff₀ hpos]
      push_cast
      linarith
    · rw [div_le_iff₀ hpos]
      push_cast
      linarith
  refine roundWithAccuracy_of_shift (n := 1) hshift ?_ ?_ (by simp) _
  · rw [hrounded, targetExponent_eq, totalExponent, Nat.log2_two_pow]
    push_cast
    omega
  · rw [hrounded, pow_one]
    rfl

/-- **A number that rounds to a double is rounded to it.** -/
theorem roundWithAccuracy_eq (hv : Stands (.ofMantissaAndAccuracy q acc) (v / 2 ^ te))
    (hte : te ≤ -1074 ∨ 2 ^ 52 ≤ q) (hd : IsDouble m e) (hround : RoundsTo m e v) :
    roundWithAccuracy Format.binary64 s q te acc = .finite s m e hd.pos := by
  by_cases hnear : 2 ^ (52 + e) ≤ v ∨ e = -1074
  · exact roundWithAccuracy_of_le hv hte hd hround hnear
  · obtain ⟨hbelow, hleast⟩ := not_or.mp hnear
    rw [not_le] at hbelow
    obtain rfl : m = 2 ^ 52 := hround.eq_two_pow (hd.normal.resolve_right hleast) hbelow
    exact roundWithAccuracy_of_lt hv hte (lt_of_le_of_ne hd.le (Ne.symm hleast)) hround hbelow

/-- **A quotient that rounds to a double** is divided to it. -/
theorem div_eq {s₁ s₂ : Sign} {m₁ m₂ : ℕ} {e₁ e₂ : ℤ} (h₁ : 0 < m₁) (h₂ : 0 < m₂)
    (hd : IsDouble m e) (hround : RoundsTo m e (m₁ * 2 ^ e₁ / (m₂ * 2 ^ e₂))) :
    UnpackedFloat.div Format.binary64 (.finite s₁ m₁ e₁ h₁) (.finite s₂ m₂ e₂ h₂) =
      .finite (s₁ / s₂) m e hd.pos := by
  have hpos₂ : (0 : ℚ) < m₂ := by exact_mod_cast h₂
  show (let (m, e, acc) := divCore Format.binary64 m₁ e₁ m₂ e₂
    roundWithAccuracy Format.binary64 (s₁ / s₂) m e acc) = _
  unfold divCore
  rw [targetExponent_eq, totalExponent, totalExponent]
  dsimp only
  generalize hte : min (e₁ - e₂)
    (max ((m₁.log2 : ℤ) + 1 + e₁ - (m₂.log2 + 1 + e₂) - 53) (-1074)) = te
  generalize hn : (e₁ - e₂ - te).toNat = n
  have hexponents : e₁ - e₂ = te + n := by omega
  refine roundWithAccuracy_eq (v := m₁ * 2 ^ e₁ / (m₂ * 2 ^ e₂)) ?_ ?_ hd hround
  · have hvalue : (m₁ * 2 ^ e₁ / (m₂ * 2 ^ e₂) : ℚ) / 2 ^ te = ((m₁ <<< n : ℕ) : ℚ) / m₂ := by
      obtain rfl : e₁ = e₂ + (te + n) := by omega
      have hte : (0 : ℚ) < 2 ^ te := zpow_pos two_pos te
      have he₂ : (0 : ℚ) < 2 ^ e₂ := zpow_pos two_pos e₂
      rw [zpow_add₀ two_ne_zero, zpow_add₀ two_ne_zero, zpow_natCast, Nat.shiftLeft_eq]
      push_cast
      field_simp
    rw [hvalue]
    exact stands_div _ h₂
  · -- the dividend has been given enough places
    refine or_iff_not_imp_left.mpr fun hleast => (Nat.le_div_iff_mul_le h₂).mpr ?_
    have hplaces : m₂.log2 + 53 ≤ m₁.log2 + n := by omega
    calc 2 ^ 52 * m₂ ≤ 2 ^ 52 * 2 ^ (m₂.log2 + 1) := Nat.mul_le_mul_left _ Nat.lt_log2_self.le
      _ = 2 ^ (m₂.log2 + 53) := by rw [← pow_add]; congr 1; omega
      _ ≤ 2 ^ (m₁.log2 + n) := Nat.pow_le_pow_right two_pos hplaces
      _ = 2 ^ m₁.log2 * 2 ^ n := pow_add ..
      _ ≤ m₁ * 2 ^ n := Nat.mul_le_mul_right _ (Nat.log2_self_le h₁.ne')
      _ = m₁ <<< n := (Nat.shiftLeft_eq ..).symm

end Round

end Decimal

end FormulaSynth
