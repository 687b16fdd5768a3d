import FormulaSynth.Proofs.Decimal.Nearest
import Mathlib
/-!
# Doubles and their words

A double is kept as a word of 64 bits, and to calculate with it the word is taken apart into a
sign, a mantissa and an exponent. A mantissa and an exponent as a double has them are those of
the word they are packed into (`Decimal.unpack_pack`), and the parts that `Decimal.Binary.ofBits`
has of a positive double are the same (`Decimal.Parts.ofBits_toBits`).
-/

namespace FormulaSynth

namespace Decimal

open Float.Model Float.Model.UnpackedFloat

/-! ## Unpacking -/

section Unpack

variable {b : BitVec Format.binary64.numBits} {s : Sign} {m f q : ℕ} {e : ℤ} {hpos : 0 < m}

/-- **A finite double and the fields of its word.** -/
theorem exists_fields_of_unpack
    (h : UnpackedFloat.unpack Format.binary64 b = .finite s m e hpos) :
    ∃ f q : ℕ, b = packComponents Format.binary64 s (.ofNat 11 f) (.ofNat 52 q) ∧ f < 2047 ∧
      q < 2 ^ 52 ∧ ((f = 0 ∧ m = q ∧ e = -1074) ∨ (0 < f ∧ m = 2 ^ 52 + q ∧ e = f - 1075)) := by
  have hbias : (Format.binary64.exponentBias : ℤ) + (52 : ℕ) = 1075 := rfl
  have hb := packComponents_unpackSign_unpackExponent_unpackMantissa b
  unfold UnpackedFloat.unpack at h
  dsimp only at h
  have hexponent : (unpackExponent b).toNat < 2048 := (unpackExponent b).isLt
  have hmantissa : (unpackMantissa b).toNat < 2 ^ 52 := (unpackMantissa b).isLt
  refine ⟨(unpackExponent b).toNat, (unpackMantissa b).toNat, ?_⟩
  rw [BitVec.ofNat_toNat, BitVec.ofNat_toNat]
  split at h
  · split at h <;> cases h
  next hmax =>
  have hmax : (unpackExponent b).toNat < 2047 :=
    lt_of_le_of_ne (Nat.le_of_lt_succ hexponent) fun h => hmax (BitVec.eq_of_toNat_eq h)
  split at h
  · next hzero =>
    split at h
    · cases h
    · injection h with hs hm he
      rw [hs] at hb
      refine ⟨hb.symm, hmax, hmantissa, .inl ⟨?_, hm.symm, ?_⟩⟩
      · rw [hzero]
        rfl
      · rw [← he, hzero, hbias]
        rfl
  · next hzero =>
    injection h with hs hm he
    rw [hs] at hb
    refine ⟨hb.symm, hmax, hmantissa, .inr ⟨?_, ?_, ?_⟩⟩
    · exact Nat.pos_of_ne_zero fun h => hzero (BitVec.eq_of_toNat_eq h)
    · rw [← hm, BitVec.toNat_append, ← Nat.shiftLeft_add_eq_or_of_lt (BitVec.isLt _)]
      rfl
    · rw [← he, hbias]

/-- The parts of one of the least doubles. -/
theorem unpack_of_least (hpos : 0 < q) (hq : q < 2 ^ 52) :
    UnpackedFloat.unpack Format.binary64 (packComponents Format.binary64 s 0#11 (.ofNat 52 q)) =
      .finite s q (-1074) hpos := by
  have hq : (BitVec.ofNat 52 q).toNat = q := Nat.mod_eq_of_lt hq
  have hzero : BitVec.ofNat 52 q ≠ 0#52 := fun h => by
    rw [h] at hq
    exact hpos.ne hq
  unfold UnpackedFloat.unpack
  simp only [unpackMantissa_packComponents, unpackExponent_packComponents,
    unpackSign_packComponents, Sign.ofBitVec_toBitVec]
  rw [if_neg (by decide), if_pos trivial, dif_neg hzero]
  simp only [hq]
  rfl

/-- The parts of a double with a full mantissa. -/
theorem unpack_of_normal (hf : 0 < f) (hmax : f < 2047) (hq : q < 2 ^ 52) :
    UnpackedFloat.unpack Format.binary64
      (packComponents Format.binary64 s (.ofNat 11 f) (.ofNat 52 q)) =
        .finite s (2 ^ 52 + q) (f - 1075) (Nat.add_pos_left (Nat.two_pow_pos 52) q) := by
  have hq' : (1#1 ++ BitVec.ofNat 52 q).toNat = 2 ^ 52 + q := by
    have hq : (BitVec.ofNat 52 q).toNat = q := Nat.mod_eq_of_lt hq
    rw [BitVec.toNat_append, ← Nat.shiftLeft_add_eq_or_of_lt (BitVec.isLt _), hq]
    rfl
  have hf' : (BitVec.ofNat 11 f).toNat = f := Nat.mod_eq_of_lt (by omega)
  unfold UnpackedFloat.unpack
  simp only [unpackMantissa_packComponents, unpackExponent_packComponents,
    unpackSign_packComponents, Sign.ofBitVec_toBitVec]
  rw [if_neg, if_neg]
  · simp only [hq', hf']
    rfl
  · intro h
    rw [h] at hf'
    exact hf.ne hf'
  · intro h
    rw [h] at hf'
    exact hmax.ne' hf'

/-- **The parts of a finite double** are a mantissa and an exponent as they should be. -/
theorem isDouble_of_unpack (h : UnpackedFloat.unpack Format.binary64 b = .finite s m e hpos) :
    IsDouble m e ∧ e ≤ 971 := by
  obtain ⟨f, q, -, hf, hq, ⟨rfl, rfl, rfl⟩ | ⟨hzero, rfl, rfl⟩⟩ := exists_fields_of_unpack h
  · exact ⟨⟨hpos, by omega, le_rfl, .inr rfl⟩, by omega⟩
  · exact ⟨⟨hpos, by omega, by omega, .inl (Nat.le_add_right ..)⟩, by omega⟩

end Unpack

/-! ## Packing -/

section Pack

variable {b : BitVec Format.binary64.numBits} {s : Sign} {m f q : ℕ} {e : ℤ} {hpos : 0 < m}

/-- The word of one of the least doubles. -/
theorem pack_of_least (hlt : m < 2 ^ 52) :
    UnpackedFloat.pack Format.binary64 (.finite s m (-1074) hpos) =
      packComponents Format.binary64 s 0#11 (.ofNat 52 m) := by
  have hlog : m.log2 < 52 := (Nat.log2_lt hpos.ne').mpr hlt
  have hbits : m.log2 + 1 ≠ Format.binary64.mantissaBits := by
    show m.log2 + 1 ≠ 53
    omega
  unfold UnpackedFloat.pack
  dsimp only
  rw [if_neg (by decide), if_neg hbits]

/-- The word of a double with a full mantissa. -/
theorem pack_of_normal {hpos : 0 < 2 ^ 52 + q} (hmax : f < 2047) (hq : q < 2 ^ 52) :
    UnpackedFloat.pack Format.binary64 (.finite s (2 ^ 52 + q) (f - 1075) hpos) =
      packComponents Format.binary64 s (.ofNat 11 f) (.ofNat 52 q) := by
  have hlog : (2 ^ 52 + q).log2 = 52 :=
    (Nat.log2_eq_iff hpos.ne').mpr ⟨Nat.le_add_right .., by omega⟩
  have hbits : 52 + 1 = Format.binary64.mantissaBits := rfl
  have hbiased : ((f : ℤ) - 1075 + Format.binary64.exponentBias + (52 : ℕ)).toNat = f := by
    rw [add_assoc]
    show ((f : ℤ) - 1075 + 1075).toNat = f
    omega
  have hmantissa : BitVec.ofNat 52 (2 ^ 52 + q) = BitVec.ofNat 52 q := by
    apply BitVec.eq_of_toNat_eq
    rw [BitVec.toNat_ofNat, Nat.add_mod_left, BitVec.toNat_ofNat]
  unfold UnpackedFloat.pack
  dsimp only
  rw [hbiased, if_neg (by simp; omega), hlog, if_pos hbits]
  exact congrArg _ hmantissa

/-- **Unpacking a double** gives the parts it was packed from. -/
theorem unpack_pack (h : IsDouble m e) (hle : e ≤ 971) :
    UnpackedFloat.unpack Format.binary64
      (UnpackedFloat.pack Format.binary64 (.finite s m e h.pos)) = .finite s m e h.pos := by
  by_cases hlow : 2 ^ 52 ≤ m
  · obtain ⟨q, rfl⟩ := Nat.exists_eq_add_of_le hlow
    obtain ⟨f, hf⟩ : ∃ f : ℕ, (f : ℤ) = e + 1075 := ⟨_, Int.toNat_of_nonneg (by grind [h.le])⟩
    obtain rfl : e = f - 1075 := by omega
    have hle' := h.le
    have hlt := h.lt
    rw [pack_of_normal (by omega) (by omega)]
    exact unpack_of_normal (by omega) (by omega) (by omega)
  · obtain rfl : e = -1074 := h.normal.resolve_left hlow
    rw [pack_of_least (not_le.mp hlow)]
    exact unpack_of_least h.pos (not_le.mp hlow)

end Pack

/-! ## Positive doubles -/

/-- **The parts of a positive double**: a mantissa and an exponent of two. -/
def Parts (x : Float) (m : ℕ) (e : ℤ) : Prop :=
  ∃ hpos, x.toModel.unpack = .finite .positive m e hpos

namespace Parts

variable {x y z : Float} {m m₁ m₂ : ℕ} {e e₁ e₂ : ℤ}

theorem isDouble (h : Parts x m e) : IsDouble m e :=
  (isDouble_of_unpack h.choose_spec).1

theorem le (h : Parts x m e) : e ≤ 971 :=
  (isDouble_of_unpack h.choose_spec).2

/-- A double is made of its parts. -/
theorem eq_ofModel (h : Parts x m e) {hpos : 0 < m} :
    Float.ofModel (.pack (.finite .positive m e hpos)) = x := by
  obtain ⟨_, hunpack⟩ := h
  obtain ⟨⟨bits, hvalid⟩⟩ := x
  have hpack : UnpackedFloat.pack Format.binary64 (.finite .positive m e hpos) =
      bits.toBitVec := hunpack ▸ pack_unpack_of_valid hvalid
  simp only [Float.Model.pack, hpack, UInt64.ofBitVec_toBitVec]

/-- What is made of parts has them. -/
theorem ofModel (h : IsDouble m e) (hle : e ≤ 971) :
    Parts (Float.ofModel (.pack (.finite .positive m e h.pos))) m e :=
  ⟨h.pos, unpack_pack h hle⟩

/-- **The quotient of doubles** is the double that it rounds to. -/
theorem div_eq (hx : Parts x m₁ e₁) (hy : Parts y m₂ e₂) (hz : Parts z m e)
    (hround : RoundsTo m e (m₁ * 2 ^ e₁ / (m₂ * 2 ^ e₂))) : x / y = z := by
  obtain ⟨h₁, hx⟩ := hx
  obtain ⟨h₂, hy⟩ := hy
  show Float.ofModel (.pack (UnpackedFloat.div Format.binary64 x.toModel.unpack
    y.toModel.unpack)) = z
  rw [hx, hy, Decimal.div_eq h₁ h₂ hz.isDouble hround]
  exact hz.eq_ofModel

/-- The word of a double. -/
theorem exists_toNat_toBits (h : Parts x m e) :
    ∃ f q : ℕ, x.toBits.toNat = f * 2 ^ 52 + q ∧ f < 2047 ∧ q < 2 ^ 52 ∧
      ((f = 0 ∧ m = q ∧ e = -1074) ∨ (0 < f ∧ m = 2 ^ 52 + q ∧ e = f - 1075)) := by
  obtain ⟨_, hunpack⟩ := h
  obtain ⟨f, q, hbits, hf, hq, hparts⟩ := exists_fields_of_unpack hunpack
  refine ⟨f, q, ?_, hf, hq, hparts⟩
  have hf' : (BitVec.ofNat 11 f).toNat = f := Nat.mod_eq_of_lt (by omega)
  have hq' : (BitVec.ofNat 52 q).toNat = q := Nat.mod_eq_of_lt hq
  have hsign : (Sign.positive.toBitVec ++ BitVec.ofNat 11 f).toNat = f := by
    rw [BitVec.toNat_append, hf']
    exact Nat.zero_or f
  show x.toModel.toBits.toBitVec.toNat = _
  rw [hbits, packComponents, BitVec.toNat_append, ← Nat.shiftLeft_add_eq_or_of_lt (BitVec.isLt _),
    hsign, hq', Nat.shiftLeft_eq]

/-- **A word is taken apart** into the parts of its double. -/
theorem ofBits_toBits (h : Parts x m e) :
    Binary.ofBits x.toBits = ⟨m, e, decide (m = 2 ^ 52 ∧ -1074 < e)⟩ := by
  have hhidden : Binary.hiddenBit = 2 ^ 52 := rfl
  obtain ⟨f, q, hbits, hf, hq, hparts⟩ := h.exists_toNat_toBits
  have hfield : (x.toBits >>> 52).toNat % 2048 = f := by
    rw [UInt64.toNat_shiftRight, hbits, Nat.shiftRight_eq_div_pow]
    show (f * 2 ^ 52 + q) / 2 ^ 52 % 2048 = f
    omega
  have hfraction : x.toBits.toNat % Binary.hiddenBit = q := by
    rw [hbits, hhidden]
    omega
  unfold Binary.ofBits
  rw [hfield, hfraction]
  obtain ⟨rfl, rfl, rfl⟩ | ⟨hzero, rfl, rfl⟩ := hparts
  · rw [if_pos rfl]
    simp
  · rw [if_neg hzero.ne', hhidden]
    congr 1
    rw [Bool.eq_iff_iff]
    simp
    omega

/-- The sign bit of a positive double is not set. -/
theorem sign_ne_one (h : Parts x m e) : x.toBits >>> 63 ≠ 1 := by
  obtain ⟨f, q, hbits, hf, hq, -⟩ := h.exists_toNat_toBits
  intro hsign
  have htop : (x.toBits >>> 63).toNat = 1 := congrArg UInt64.toNat hsign
  rw [UInt64.toNat_shiftRight, hbits, Nat.shiftRight_eq_div_pow] at htop
  have hzero : (f * 2 ^ 52 + q) / 2 ^ 63 = 1 := htop
  omega

theorem isNaN_eq_false (h : Parts x m e) : x.isNaN = false := by
  obtain ⟨_, hunpack⟩ := h
  show x.toModel.unpack.isNaN = false
  rw [hunpack]
  rfl

theorem isInf_eq_false (h : Parts x m e) : x.isInf = false := by
  obtain ⟨_, hunpack⟩ := h
  show x.toModel.unpack.isInf = false
  rw [hunpack]
  rfl

theorem isFinite_eq_true (h : Parts x m e) : x.isFinite = true := by
  obtain ⟨_, hunpack⟩ := h
  show x.toModel.unpack.isFinite = true
  rw [hunpack]
  rfl

end Parts

/-- A finite number above zero has parts. -/
theorem exists_parts {x : Float} (hfinite : x.isFinite = true) (hpos : 0.0 < x) :
    ∃ m e, Parts x m e := by
  have hzero : (0.0 : Float).toModel.unpack = .zero .positive := rfl
  have hlt : decide ((0.0 : Float).toModel.unpack.lt x.toModel.unpack = true) = true := hpos
  have hfinite : x.toModel.unpack.isFinite = true := hfinite
  rw [hzero] at hlt
  unfold Parts
  cases hx : x.toModel.unpack with
  | notANumber => rw [hx] at hfinite; cases hfinite
  | infinity => rw [hx] at hfinite; cases hfinite
  | zero => rw [hx] at hlt; cases hlt
  | finite s m e h =>
    cases s with
    | negative => rw [hx] at hlt; cases hlt
    | positive => exact ⟨m, e, h, rfl⟩

end Decimal

end FormulaSynth
