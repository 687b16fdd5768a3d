import FormulaSynth.Proofs.Decimal.Doubles
/-!
# Reading decimals

A number in decimal is read as the quotient of its digits and a power of ten. Where both are
doubles themselves they are divided, and where they are not the same quotient is worked out
exactly before it is rounded. Either way the double is the one that the number rounds to
(`Decimal.toFloat_eq`).
-/

namespace FormulaSynth

namespace Decimal

open Float.Model Float.Model.UnpackedFloat

variable {x : Float} {m n k : ℕ} {e : ℤ}

/-! ## Rounding -/

/-- A double rounds to itself. -/
theorem roundsTo_self (m : ℕ) (e : ℤ) : RoundsTo m e (m * 2 ^ e) where
  lower := by
    have hpos : (0 : ℚ) < 2 ^ e := zpow_pos two_pos e
    refine mul_le_mul_of_nonneg_right ?_ hpos.le
    split <;> linarith
  upper := by
    have hpos : (0 : ℚ) < 2 ^ e := zpow_pos two_pos e
    exact mul_le_mul_of_nonneg_right (by linarith) hpos.le
  odd _ := by
    have hpos : (0 : ℚ) < 2 ^ e := zpow_pos two_pos e
    exact ⟨mul_lt_mul_of_pos_right (by linarith) hpos, mul_lt_mul_of_pos_right (by linarith) hpos⟩

namespace RoundsTo

variable {v : ℚ}

/-- A number that rounds to a double is not much less than the least of them. -/
theorem least_le (h : RoundsTo m e v) (hd : IsDouble m e) : 1 / 2 ^ 1075 ≤ v := by
  have hpos : (0 : ℚ) < 2 ^ e := zpow_pos two_pos e
  have hm : (1 : ℚ) ≤ m := by exact_mod_cast hd.pos
  have hhalf : (1 / 2 : ℚ) ≤ m - if m = 2 ^ 52 ∧ -1074 < e then 1 / 4 else 1 / 2 := by
    split <;> linarith
  have hleast : (2 : ℚ) ^ (-1074 : ℤ) ≤ 2 ^ e := zpow_le_zpow_right₀ one_le_two hd.le
  calc (1 : ℚ) / 2 ^ 1075 = 1 / 2 * 2 ^ (-1074 : ℤ) := by
        rw [pow_succ' 2 1074, zpow_neg, zpow_ofNat, ← one_div, div_mul_div_comm, one_mul]
    _ ≤ 1 / 2 * 2 ^ e := by linarith
    _ ≤ _ := mul_le_mul_of_nonneg_right hhalf hpos.le
    _ ≤ v := h.lower

/-- A number that rounds to a double is not much greater than the greatest of them. -/
theorem le_greatest (h : RoundsTo m e v) (hd : IsDouble m e) (hle : e ≤ 971) : v ≤ 2 ^ 1024 := by
  have hm : (m : ℚ) + 1 ≤ 2 ^ 53 := by exact_mod_cast hd.lt
  have hpower : (2 : ℚ) ^ e ≤ 2 ^ 971 := by
    rw [← zpow_natCast]
    exact zpow_le_zpow_right₀ one_le_two hle
  calc v ≤ (m + 1 / 2) * 2 ^ e := h.upper
    _ ≤ 2 ^ 53 * 2 ^ 971 := by gcongr; linarith
    _ = 2 ^ 1024 := (pow_add 2 53 971).symm

end RoundsTo

/-! ## Doubles that are whole numbers -/

/-- The mantissa of a number below two to the 53, shifted to its full length. -/
theorem two_pow_le_shifted (hpos : 0 < n) (hlt : n < 2 ^ 53) : 2 ^ 52 ≤ n * 2 ^ (52 - n.log2) := by
  have hlog : n.log2 < 53 := (Nat.log2_lt hpos.ne').mpr hlt
  calc 2 ^ 52 = 2 ^ n.log2 * 2 ^ (52 - n.log2) := by rw [← pow_add]; congr 1; omega
    _ ≤ n * 2 ^ (52 - n.log2) := Nat.mul_le_mul_right _ (Nat.log2_self_le hpos.ne')

theorem isDouble_shifted (hpos : 0 < n) (hlt : n < 2 ^ 53) :
    IsDouble (n * 2 ^ (52 - n.log2)) (n.log2 - 52) where
  pos := Nat.mul_pos hpos (Nat.two_pow_pos _)
  lt := by
    have hlog : n.log2 < 53 := (Nat.log2_lt hpos.ne').mpr hlt
    calc n * 2 ^ (52 - n.log2) < 2 ^ (n.log2 + 1) * 2 ^ (52 - n.log2) :=
          Nat.mul_lt_mul_of_pos_right Nat.lt_log2_self (Nat.two_pow_pos _)
      _ = 2 ^ 53 := by rw [← pow_add]; congr 1; omega
  le := by omega
  normal := .inl (two_pow_le_shifted hpos hlt)

/-- **A number below two to the 53** is a double. -/
theorem parts_toFloat (hpos : 0 < n) (hlt : n < 2 ^ 53) :
    Parts n.toUInt64.toFloat (n * 2 ^ (52 - n.log2)) (n.log2 - 52) := by
  have hlog : n.log2 < 53 := (Nat.log2_lt hpos.ne').mpr hlt
  have hd := isDouble_shifted hpos hlt
  have hn : n.toUInt64.toNat = n := by
    rw [UInt64.toNat_ofNat']
    exact Nat.mod_eq_of_lt (by omega)
  have htarget : Format.binary64.targetExponent (totalExponent n 0) = n.log2 - 52 := by
    rw [targetExponent_eq, totalExponent]
    omega
  have hshift : (0 - ((n.log2 : ℤ) - 52)).toNat = 52 - n.log2 := by omega
  have hexponent : (0 : ℤ) - (52 - n.log2 : ℕ) = n.log2 - 52 := by omega
  have hcompare : compare (n : ℤ) 0 = .gt := Int.compare_eq_gt.mpr (by omega)
  have hunpacked : UnpackedFloat.ofUInt64 Format.binary64 n.toUInt64 =
      .finite .positive (n * 2 ^ (52 - n.log2)) (n.log2 - 52) hd.pos := by
    rw [UnpackedFloat.ofUInt64, hn, UnpackedFloat.ofNat, UnpackedFloat.ofInt,
      UnpackedFloat.normalize, hcompare]
    dsimp only
    rw [Int.toNat_natCast, UnpackedFloat.round, htarget, decreaseExponent, hshift,
      Nat.shiftLeft_eq]
    dsimp only
    rw [hexponent]
    refine roundWithAccuracy_eq (v := _) ?_ (.inr (two_pow_le_shifted hpos hlt)) hd
      (roundsTo_self _ _)
    rw [mul_div_cancel_right₀ _ (zpow_pos two_pos _).ne']
    exact stands_exact _
  show Parts (.ofModel (.pack (UnpackedFloat.ofUInt64 Format.binary64 n.toUInt64))) _ _
  rw [hunpacked]
  exact Parts.ofModel hd (by omega)

/-- Whether a double is a power of ten, exactly. -/
def isTenPower (k : ℕ) : UnpackedFloat → Bool
  | .finite .positive m e _ => m * 2 ^ e.toNat = 10 ^ k * 2 ^ (-e).toNat
  | _ => false

theorem isTenPower_table : ∀ k : Fin Float.exactlyRepresentablePowersOfTen.size,
    isTenPower k Float.exactlyRepresentablePowersOfTen[k].toModel.unpack = true := by
  decide +kernel

/-- **The powers of ten that doubles can be** are those doubles. -/
theorem exists_parts_tenPower (hk : k < Float.exactlyRepresentablePowersOfTen.size) :
    ∃ m e, Parts Float.exactlyRepresentablePowersOfTen[k] m e ∧ (m * 2 ^ e : ℚ) = 10 ^ k := by
  have htable : isTenPower k Float.exactlyRepresentablePowersOfTen[k].toModel.unpack = true :=
    isTenPower_table ⟨k, hk⟩
  unfold Parts
  generalize Float.exactlyRepresentablePowersOfTen[k].toModel.unpack = u at htable
  unfold isTenPower at htable
  split at htable
  case h_2 => cases htable
  next m e hpos =>
  refine ⟨m, e, ⟨hpos, rfl⟩, ?_⟩
  have hpower : (m * 2 ^ e.toNat : ℚ) = 10 ^ k * 2 ^ (-e).toNat := by
    exact_mod_cast of_decide_eq_true htable
  have he : e = e.toNat - (-e).toNat := by omega
  rw [he, zpow_sub₀ two_ne_zero, zpow_natCast, zpow_natCast, ← mul_div_assoc, hpower,
    mul_div_cancel_right₀ _ (pow_pos two_pos _).ne']

/-! ## Numbers of digits -/

theorem lt_ten_pow_digitCount (n : ℕ) : n < 10 ^ Binary.digitCount n :=
  (Nat.length_toDigits_le_iff (by decide) Nat.length_toDigits_pos).mp le_rfl

theorem digitCount_pos (n : ℕ) : 0 < Binary.digitCount n :=
  Nat.length_toDigits_pos

theorem ten_pow_le (hn : 0 < n) : 10 ^ (Binary.digitCount n - 1) ≤ n := by
  obtain hone | hmore := Nat.eq_or_lt_of_le (digitCount_pos n)
  · rw [← hone]
    exact hn
  · by_contra hlt
    have hcount := (Nat.length_toDigits_le_iff (by decide) (Nat.sub_pos_of_lt hmore)).mpr
      (not_le.mp hlt)
    have hpos := digitCount_pos n
    unfold Binary.digitCount at *
    omega

/-- A number has no more digits than bits. -/
theorem digitCount_le_log2 (hn : 0 < n) : Binary.digitCount n ≤ n.log2 + 1 := by
  have hle : 2 ^ (Binary.digitCount n - 1) ≤ n :=
    (Nat.pow_le_pow_left (by decide) _).trans (ten_pow_le hn)
  have hlog := (Nat.le_log2 hn.ne').mpr hle
  omega

/-! ## Digits and a power of ten -/

/-- Dividing by a power of ten, where the digits and the power are doubles and where they are
not. -/
theorem ofScientific_eq (hx : Parts x m e) (hn : 0 < n) (hk : 0 < k)
    (hround : RoundsTo m e (n / 10 ^ k)) (hle : k ≤ 2048 + n.log2) :
    Float.ofScientific n true k = x := by
  rw [Float.ofScientific]
  split
  · next h =>
    obtain ⟨m₂, e₂, hpower, hvalue⟩ :=
      exists_parts_tenPower (k := k) (Nat.lt_of_le_of_lt h.2 (by decide))
    refine (parts_toFloat hn h.1).div_eq hpower hx ?_
    have hlog : n.log2 < 53 := (Nat.log2_lt hn.ne').mpr h.1
    have hscale : ((n * 2 ^ (52 - n.log2) : ℕ) : ℚ) * 2 ^ ((n.log2 : ℤ) - 52) = n := by
      push_cast
      rw [← zpow_natCast, mul_assoc, ← zpow_add₀ two_ne_zero]
      have hzero : ((52 - n.log2 : ℕ) : ℤ) + (n.log2 - 52) = 0 := by omega
      rw [hzero, zpow_zero, mul_one]
    rw [hvalue, hscale]
    exact hround
  · have he : Int.negOfNat k = -(k : ℤ) := Int.negOfNat_eq
    have hdiv : UnpackedFloat.ofScientific Format.binary64 n (Int.negOfNat k) =
        .finite (.positive / .positive) m e hx.isDouble.pos := by
      have hbits : Format.binary64.exponentBits = 11 := rfl
      rw [UnpackedFloat.ofScientific, dif_neg hn.ne', he, hbits, if_neg (by omega),
        if_neg (by push_cast; omega), if_neg (by omega)]
      simp only [neg_neg, Int.toNat_natCast]
      refine div_eq _ _ hx.isDouble ?_
      push_cast
      rwa [mul_one, mul_one]
    show Float.ofModel (.pack (UnpackedFloat.ofScientific Format.binary64 n (Int.negOfNat k))) = x
    rw [hdiv]
    exact hx.eq_ofModel

/-- The reciprocal of the least double is well below ten to the 400. -/
theorem two_pow_lt_ten_pow : 2 ^ 1075 < 10 ^ 400 :=
  calc 2 ^ 1075 ≤ 2 ^ (3 * 400) := by gcongr <;> decide
    _ = (2 ^ 3) ^ 400 := by rw [pow_mul]
    _ < 10 ^ 400 := by gcongr; decide

/-- **A decimal is read as the double that it rounds to.** -/
theorem toFloat_eq (hx : Parts x m e) (hk : 0 < k) (hround : RoundsTo m e (n / 10 ^ k)) :
    toFloat n (-k) = x := by
  have hten : (0 : ℚ) < 10 ^ k := pow_pos (by norm_num) k
  have hleast := hround.least_le hx.isDouble
  have hgreatest := hround.le_greatest hx.isDouble hx.le
  rw [div_le_div_iff₀ (pow_pos two_pos _) hten, one_mul] at hleast
  rw [div_le_iff₀ hten] at hgreatest
  have hleast : 10 ^ k ≤ n * 2 ^ 1075 := by exact_mod_cast hleast
  have hgreatest : n ≤ 2 ^ 1024 * 10 ^ k := by exact_mod_cast hgreatest
  have hn : 0 < n := by
    refine Nat.pos_of_ne_zero fun h => ?_
    rw [h, Nat.zero_mul, Nat.le_zero] at hleast
    exact (Nat.pow_pos (by decide)).ne' hleast
  have hdigits := digitCount_pos n
  -- the number is within the bounds beyond which none is worked out
  have hlow : k ≤ Binary.digitCount n + 400 := by
    refine (Nat.pow_lt_pow_iff_right (a := 10) (by decide)).mp ?_ |>.le
    calc 10 ^ k ≤ n * 2 ^ 1075 := hleast
      _ < 10 ^ Binary.digitCount n * 10 ^ 400 :=
        Nat.mul_lt_mul'' (lt_ten_pow_digitCount n) two_pow_lt_ten_pow
      _ = 10 ^ (Binary.digitCount n + 400) := (pow_add ..).symm
  have hhigh : Binary.digitCount n - 1 < k + 400 := by
    have hpower : 2 ^ 1024 ≤ 2 ^ 1075 := pow_le_pow_right₀ one_le_two (by decide)
    refine (Nat.pow_lt_pow_iff_right (a := 10) (by decide)).mp ?_
    calc 10 ^ (Binary.digitCount n - 1) ≤ n := ten_pow_le hn
      _ ≤ 2 ^ 1024 * 10 ^ k := hgreatest
      _ < 10 ^ 400 * 10 ^ k := Nat.mul_lt_mul_of_pos_right (hpower.trans_lt two_pow_lt_ten_pow)
        (Nat.pow_pos (by decide))
      _ = 10 ^ (k + 400) := by rw [← pow_add, add_comm]
  have hlog := digitCount_le_log2 hn
  unfold toFloat
  dsimp only
  rw [if_neg, if_neg (by omega), if_pos (by omega), Int.natAbs_neg, Int.natAbs_natCast]
  · exact ofScientific_eq hx hn hk hround (by omega)
  · simp
    omega

end Decimal

end FormulaSynth
