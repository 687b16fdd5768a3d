import FormulaSynth.Builtin
import FormulaSynth.Proofs.Word.Arithmetic
import Mathlib.Data.FinEnum
import Mathlib.Data.Set.Card
/-!
# The hash behind `srand`

The hash is an affine map and three exclusive ors of a word with a shift of itself. Over the
two-element field all but the affine map is linear, so what is lost is what the steps take to
zero. A shift to the left moves zeros in, and a word that is its own shift to the left is zero
(`eq_zero_of_shiftLeft_eq`); so those two steps lose nothing, nor does the affine map, as its
factor is odd. A shift to the right that keeps the sign moves copies of it in. There are two
words that are their own shift, zero and the word of all ones (`sshiftRight_eq_self_iff`), so
the middle step loses one bit: it takes a word and its complement to the same.

So the hash is two-to-one (`Builtin.scramble_two_to_one`). Two words collide if they are equal,
or complements of each other after the first step, and half of the words are values.
-/

namespace FormulaSynth

/-! ## Shifts and exclusive ors -/

section Shifts

variable {w s : Nat} {x y : BitVec w}

/-- **Only zero is its own shift to the left.** Its low bits are zeros moved in, and every other
bit is one further down. -/
theorem eq_zero_of_shiftLeft_eq (hs : 0 < s) (h : x <<< s = x) : x = 0#w := by
  have hbit : ∀ i, x.getLsbD i = false := by
    intro i
    induction i using Nat.strongRecOn with
    | ind i ih =>
      rw [← h, BitVec.getLsbD_shiftLeft]
      by_cases hi : i < s
      · simp [hi]
      · rw [ih (i - s) (by omega), Bool.and_false]
  exact BitVec.eq_of_getLsbD_eq fun i _ => by rw [hbit i, BitVec.getLsbD_zero]

/-- **Zero and the word of all ones are their own shifts to the right**, and no other word is.
Its highest bits are copies of the sign moved in, and every other bit is one further up. -/
theorem sshiftRight_eq_self_iff (hs : 0 < s) :
    x.sshiftRight s = x ↔ x = 0#w ∨ x = BitVec.allOnes w := by
  constructor
  · intro h
    have hbit : ∀ k i, w = i + k → 0 < k → x.getLsbD i = x.msb := by
      intro k
      induction k using Nat.strongRecOn with
      | ind k ih =>
        intro i hi hk
        rw [← h, BitVec.getLsbD_sshiftRight, h]
        by_cases hsi : s + i < w
        · rw [if_pos hsi, ih (k - s) (by omega) (s + i) (by omega) (by omega)]
          simp [show ¬ w ≤ i by omega]
        · simp [hsi, show ¬ w ≤ i by omega]
    cases hmsb : x.msb with
    | false =>
      refine .inl (BitVec.eq_of_getLsbD_eq fun i hi => ?_)
      rw [hbit (w - i) i (by omega) (by omega), hmsb, BitVec.getLsbD_zero]
    | true =>
      refine .inr (BitVec.eq_of_getLsbD_eq fun i hi => ?_)
      rw [hbit (w - i) i (by omega) (by omega), hmsb, BitVec.getLsbD_allOnes, decide_eq_true hi]
  · rintro (rfl | rfl)
    · exact BitVec.zero_sshiftRight
    · refine BitVec.eq_of_getLsbD_eq fun i hi => ?_
      simp [BitVec.getLsbD_sshiftRight, BitVec.msb_allOnes (by omega : 0 < w), hi]

/-- Exclusive ors of two words each are equal if that of one is zero. -/
theorem xor_xor_eq_iff (a b : BitVec w) : x ^^^ a = y ^^^ b ↔ a ^^^ b = x ^^^ y := by
  rw [← BitVec.xor_eq_zero_iff, ← BitVec.xor_eq_zero_iff (x := a ^^^ b)]
  have hswap : x ^^^ a ^^^ (y ^^^ b) = a ^^^ b ^^^ (x ^^^ y) := by ac_rfl
  rw [hswap]

/-- **A word is known from its exclusive or with a shift to the left.** -/
theorem xor_shiftLeft_inj (hs : 0 < s) : x ^^^ (x <<< s) = y ^^^ (y <<< s) ↔ x = y := by
  rw [xor_xor_eq_iff, ← BitVec.shiftLeft_xor_distrib]
  constructor
  · intro h
    exact BitVec.xor_eq_zero_iff.mp (eq_zero_of_shiftLeft_eq hs h)
  · rintro rfl
    rw [BitVec.xor_self, BitVec.zero_shiftLeft]

/-- **A word is known up to its complement from its exclusive or with a shift to the right** that
keeps the sign. -/
theorem xor_sshiftRight_eq_iff (hs : 0 < s) :
    x ^^^ (x.sshiftRight s) = y ^^^ (y.sshiftRight s) ↔ x = y ∨ x = ~~~y := by
  rw [xor_xor_eq_iff, ← BitVec.sshiftRight_xor_distrib, sshiftRight_eq_self_iff hs,
    BitVec.xor_eq_zero_iff]
  have hones : x ^^^ y = BitVec.allOnes w ↔ x = ~~~y := by
    rw [← BitVec.xor_left_inj y, BitVec.xor_assoc, BitVec.xor_self, BitVec.xor_zero,
      BitVec.allOnes_xor]
  rw [hones]

end Shifts

/-- The exclusive or of a word with a shift to the left, as bits. -/
theorem toBitVec_xor_shiftLeft (x : Int32) {a : Nat} (h : a < 32) :
    (x ^^^ (x <<< Int32.ofNat a)).toBitVec = x.toBitVec ^^^ (x.toBitVec <<< a) := by
  rw [Int32.toBitVec_xor, toBitVec_shiftLeft_ofNat x h]

/-- The exclusive or of a word with a shift to the right, as bits. -/
theorem toBitVec_xor_shiftRight (x : Int32) {a : Nat} (h : a < 32) :
    (x ^^^ (x >>> Int32.ofNat a)).toBitVec = x.toBitVec ^^^ (x.toBitVec.sshiftRight a) := by
  rw [Int32.toBitVec_xor, toBitVec_shiftRight_ofNat x h]

/-! ## Functions that are two-to-one -/

/-- **If every argument shares its value with exactly one other, half as many values are taken as
there are arguments.** -/
theorem two_mul_ncard_range {α β : Type} [Finite α] {f : α → β}
    (h : ∀ x, ∃ y, y ≠ x ∧ ∀ z, f z = f x ↔ z = x ∨ z = y) :
    2 * (Set.range f).ncard = Nat.card α := by
  classical
  have := Fintype.ofFinite α
  have hfiber : ∀ b ∈ Finset.univ.image f, (Finset.univ.filter fun a => f a = b).card = 2 := by
    intro b hb
    obtain ⟨x, -, rfl⟩ := Finset.mem_image.mp hb
    obtain ⟨y, hne, hy⟩ := h x
    have hpair : (Finset.univ.filter fun a => f a = f x) = {x, y} := by
      ext z
      simp [hy z]
    rw [hpair, Finset.card_pair hne.symm]
  have hrange : Set.range f = (Finset.univ.image f : Finset β) := by
    simp
  rw [hrange, Set.ncard_coe_finset, Nat.card_eq_fintype_card, ← Finset.card_univ,
    Finset.card_eq_sum_card_image f Finset.univ, Finset.sum_const_nat hfiber, Nat.mul_comm]

/-- Words are their bits. -/
theorem toBitVec_bijective : Function.Bijective Int32.toBitVec :=
  ⟨fun _ _ h => Int32.toBitVec_inj.mp h, fun b => ⟨.ofBitVec b, rfl⟩⟩

theorem finite_words : Finite Int32 :=
  Finite.of_injective Int32.toBitVec toBitVec_bijective.injective

/-- There are as many words as 32 bits make. -/
theorem card_words : Nat.card Int32 = 2 ^ 32 := by
  rw [Nat.card_eq_of_bijective _ toBitVec_bijective, Nat.card_eq_fintype_card,
    ← FinEnum.card_eq_fintypeCard, FinEnum.card_bitVec]

namespace Builtin

/-! ## The steps of the hash -/

/-- **A word after the first step of the hash**: an affine image, and the exclusive or of that
with a shift of it to the left. -/
def mixed (x : Int32) : Int32 :=
  let p := (x + 3463) * 2971
  p ^^^ (p <<< 13)

/-- The steps after it take the word through a shift to the right and another to the left. -/
theorem toBitVec_scramble (x : Int32) :
    (scramble x).toBitVec =
      let r := (mixed x).toBitVec ^^^ ((mixed x).toBitVec.sshiftRight 17)
      r ^^^ (r <<< 5) := by
  have hright := toBitVec_xor_shiftRight (mixed x) (a := 17) (by decide)
  rw [← hright]
  exact toBitVec_xor_shiftLeft (mixed x ^^^ (mixed x >>> 17)) (a := 5) (by decide)

/-- **The affine map loses nothing**: its factor is odd, and so has an inverse among the words. -/
theorem affine_injective : Function.Injective fun x : Int32 => (x + 3463) * 2971 := by
  have hinverse : (2971 : Int32) * 2132304531 = 1 := by decide
  refine Function.LeftInverse.injective (g := fun p => p * 2132304531 - 3463) fun x => ?_
  show (x + 3463) * 2971 * 2132304531 - 3463 = x
  rw [Int32.mul_assoc, hinverse, Int32.mul_one, Int32.add_sub_cancel]

/-- **The first step loses nothing.** -/
theorem mixed_injective : Function.Injective mixed := by
  intro x y h
  have hbits : ∀ x, (mixed x).toBitVec =
      ((x + 3463) * 2971).toBitVec ^^^ (((x + 3463) * 2971).toBitVec <<< 13) :=
    fun x => toBitVec_xor_shiftLeft ((x + 3463) * 2971) (by decide)
  have hxor := congrArg Int32.toBitVec h
  rw [hbits, hbits, xor_shiftLeft_inj (by decide)] at hxor
  exact affine_injective (Int32.toBitVec_inj.mp hxor)

/-- And every word comes out of it. -/
theorem mixed_surjective : Function.Surjective mixed := by
  have := finite_words
  exact Finite.injective_iff_surjective.mp mixed_injective

/-- **Two words collide if they are equal, or complements of each other after the first step.** -/
theorem scramble_eq_iff (x y : Int32) :
    scramble y = scramble x ↔ y = x ∨ mixed y = ~~~mixed x := by
  rw [← Int32.toBitVec_inj, toBitVec_scramble, toBitVec_scramble, xor_shiftLeft_inj (by decide),
    xor_sshiftRight_eq_iff (by decide), ← Int32.toBitVec_not, Int32.toBitVec_inj,
    Int32.toBitVec_inj, mixed_injective.eq_iff]

/-- Other words than itself a word collides with in one way only. -/
theorem collides_iff (x y : Int32) :
    y ≠ x ∧ scramble y = scramble x ↔ mixed y = ~~~mixed x := by
  rw [scramble_eq_iff]
  constructor
  · rintro ⟨hne, rfl | h⟩
    · exact absurd rfl hne
    · exact h
  · intro h
    refine ⟨?_, .inr h⟩
    rintro rfl
    exact Int32.ne_not_self h

/-- **Half of the words are values of the hash.** -/
theorem ncard_range_scramble : (Set.range scramble).ncard = 2 ^ 31 := by
  have hhalf : 2 * (Set.range scramble).ncard = Nat.card Int32 := by
    have := finite_words
    refine two_mul_ncard_range fun x => ?_
    obtain ⟨y, hy⟩ := mixed_surjective (~~~mixed x)
    refine ⟨y, ((collides_iff x y).mpr hy).1, fun z => ?_⟩
    rw [scramble_eq_iff, ← hy, mixed_injective.eq_iff]
  rw [card_words] at hhalf
  omega

/-- **The hash is two-to-one.** Every word collides with exactly one other, the one whose value
after the first step is the complement of its own; and half of the words are values of the hash. -/
theorem scramble_two_to_one :
    (∀ x, ∃! y, y ≠ x ∧ scramble y = scramble x) ∧
    (∀ x y, y ≠ x ∧ scramble y = scramble x ↔ mixed y = ~~~mixed x) ∧
    (Set.range scramble).ncard = 2 ^ 31 := by
  refine ⟨fun x => ?_, collides_iff, ncard_range_scramble⟩
  obtain ⟨y, hy⟩ := mixed_surjective (~~~mixed x)
  refine ⟨y, (collides_iff x y).mpr hy, fun z hz => mixed_injective ?_⟩
  rw [(collides_iff x z).mp hz, hy]

-- the word that collides with zero
example : scramble 283320927 = scramble 0 := by decide

end Builtin

end FormulaSynth
