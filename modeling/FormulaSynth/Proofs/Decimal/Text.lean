import FormulaSynth.Proofs.Decimal.Shortest
/-!
# Decimals written out

A decimal that is written out has the value it had before, wherever the point comes to stand in
it or behind it (`Decimal.Scientific.positional_cases`), and a text with a point is read as the
double that its value rounds to (`Decimal.IsPointed.toFloat_eq`). For a positive double the text
is its shortest decimal (`Decimal.ofFloat_eq`), so reading the text gives the double again.
-/

namespace FormulaSynth

namespace Decimal

variable {n : ℕ} {ds : List Char}

/-! ## Values of digits -/

theorem toNat_append (ds es : List Char) :
    toNat (ds ++ es) = toNat ds * 10 ^ es.length + toNat es := by
  induction es using List.reverseRecOn with
  | nil => simp [toNat]
  | append_singleton es c ih =>
    rw [← List.append_assoc, toNat_concat, ih, toNat_concat, List.length_append,
      List.length_singleton]
    ring

theorem toNat_replicate_zero (k : ℕ) : toNat (List.replicate k '0') = 0 := by
  induction k with
  | zero => rfl
  | succ k ih => rw [List.replicate_succ', toNat_concat, ih]; rfl

/-! ## Digits without a zero before others -/

/-- **The digits of a whole number**, without a zero before others. -/
structure IsWhole (ds : List Char) : Prop where
  digits : ∀ c ∈ ds, isDigit c = true
  leading : ds = ['0'] ∨ ∃ c cs, ds = c :: cs ∧ c ≠ '0'

theorem exists_cons_toDigits (hn : 0 < n) : ∃ c cs, Nat.toDigits 10 n = c :: cs ∧ c ≠ '0' := by
  induction n using Nat.strongRecOn with
  | ind n ih =>
    rw [Nat.toDigits_eq_if (by decide)]
    split
    · next hlt =>
      have hdigit : ∀ d < 10, 0 < d → d.digitChar ≠ '0' := by decide
      exact ⟨_, [], rfl, hdigit n hlt hn⟩
    · next hge =>
      obtain ⟨c, cs, hcs, hc⟩ := ih (n / 10) (by omega) (by omega)
      rw [hcs]
      exact ⟨c, cs ++ [_], rfl, hc⟩

theorem isWhole_toDigits (n : ℕ) : IsWhole (Nat.toDigits 10 n) where
  digits _ h := isDigit_of_mem_toDigits h
  leading := by
    obtain rfl | hn := Nat.eq_zero_or_pos n
    · exact .inl rfl
    · exact .inr (exists_cons_toDigits hn)

/-! ## Points -/

/-- **A text with a point** and the value it has: digits on both sides, and no zero before
others. -/
structure IsPointed (text whole places : List Char) (v : ℚ) : Prop where
  text_eq : text = whole ++ '.' :: places
  isWhole : IsWhole whole
  digits : ∀ c ∈ places, isDigit c = true
  ne_nil : places ≠ []
  value_eq : (toNat (whole ++ places) / 10 ^ places.length : ℚ) = v

/-- A whole number with a point behind it, and a zero there. -/
theorem IsWhole.isPointed (h : IsWhole ds) : IsPointed (ds ++ ['.', '0']) ds ['0'] (toNat ds) where
  text_eq := rfl
  isWhole := h
  digits c hc := by rw [List.mem_singleton.mp hc]; rfl
  ne_nil := List.cons_ne_nil _ _
  value_eq := by
    have hzero : digitValue '0' = 0 := rfl
    rw [toNat_concat, hzero]
    push_cast
    simp

/-- **A text with a point is read** as the double that its value rounds to. -/
theorem IsPointed.toFloat_eq {text whole places : List Char} {v : ℚ}
    (h : IsPointed text whole places v) {x : Float} {m : ℕ} {e : ℤ} (hx : Parts x m e)
    (hround : RoundsTo m e v) : toFloat (toNat (whole ++ places)) (-places.length) = x := by
  rw [← h.value_eq] at hround
  exact Decimal.toFloat_eq hx (List.length_pos_iff.mpr h.ne_nil) hround

section Layout

variable {p k : ℕ} (hdigits : ∀ c ∈ ds, isDigit c = true)
include hdigits

theorem isDigit_zeros_append (k : ℕ) : ∀ c ∈ List.replicate k '0' ++ ds, isDigit c = true := by
  intro c hc
  obtain hc | hc := List.mem_append.mp hc
  · rw [List.eq_of_mem_replicate hc]
    rfl
  · exact hdigits c hc

/-- Zeros behind the digits of a number. -/
theorem isWhole_append_zeros (hleading : ∃ c cs, ds = c :: cs ∧ c ≠ '0') (k : ℕ) :
    IsWhole (ds ++ List.replicate k '0') where
  digits c hc := by
    obtain hc | hc := List.mem_append.mp hc
    · exact hdigits c hc
    · rw [List.eq_of_mem_replicate hc]
      rfl
  leading := by
    obtain ⟨c, cs, rfl, hc⟩ := hleading
    exact .inr ⟨c, cs ++ List.replicate k '0', rfl, hc⟩

/-- A point among the digits of a number. -/
theorem isPointed_among (hleading : ∃ c cs, ds = c :: cs ∧ c ≠ '0') (hp : 0 < p)
    (hlt : p < ds.length) :
    IsPointed (ds.take (ds.length - p) ++ '.' :: ds.drop (ds.length - p))
      (ds.take (ds.length - p)) (ds.drop (ds.length - p)) (toNat ds / 10 ^ p) where
  text_eq := rfl
  isWhole := by
    refine ⟨fun c hc => hdigits c (List.mem_of_mem_take hc), .inr ?_⟩
    obtain ⟨c, cs, rfl, hc⟩ := hleading
    obtain ⟨n, hn⟩ := Nat.exists_eq_add_of_lt hlt
    exact ⟨c, cs.take n, by rw [hn, add_assoc, Nat.add_sub_cancel_left]; rfl, hc⟩
  digits c hc := hdigits c (List.mem_of_mem_drop hc)
  ne_nil := by
    rw [ne_eq, List.drop_eq_nil_iff]
    omega
  value_eq := by
    rw [List.take_append_drop, List.length_drop, Nat.sub_sub_self hlt.le]

/-- A point before the digits of a number. -/
theorem isPointed_before (hp : 0 < p) (hle : ds.length ≤ p) :
    IsPointed ('0' :: '.' :: (List.replicate (p - ds.length) '0' ++ ds)) ['0']
      (List.replicate (p - ds.length) '0' ++ ds) (toNat ds / 10 ^ p) where
  text_eq := rfl
  isWhole := isWhole_toDigits 0
  digits := isDigit_zeros_append hdigits _
  ne_nil := by
    intro h
    have hlength := congrArg List.length h
    rw [List.length_append, List.length_replicate, List.length_nil] at hlength
    omega
  value_eq := by
    have hzero : toNat ['0'] = 0 := rfl
    rw [toNat_append, toNat_append, hzero, toNat_replicate_zero, List.length_append,
      List.length_replicate, Nat.sub_add_cancel hle]
    simp

end Layout

namespace Scientific

/-- A zero at the end of the digits goes into the exponent. -/
theorem exists_positional_eq (s : Scientific) (hpos : 0 < s.digits) : ∃ (d : ℕ) (t : ℤ),
    0 < d ∧ (d * 10 ^ t : ℚ) = s.digits * 10 ^ s.exponent ∧
    s.positional =
      if 0 ≤ t then Nat.toDigits 10 d ++ List.replicate t.toNat '0'
      else if (-t).toNat < (Nat.toDigits 10 d).length then
        (Nat.toDigits 10 d).take ((Nat.toDigits 10 d).length - (-t).toNat) ++
          '.' :: (Nat.toDigits 10 d).drop ((Nat.toDigits 10 d).length - (-t).toNat)
      else '0' :: '.' :: (List.replicate ((-t).toNat - (Nat.toDigits 10 d).length) '0' ++
        Nat.toDigits 10 d) := by
  by_cases hten : s.digits % 10 = 0
  · refine ⟨s.digits / 10, s.exponent + 1, by omega, ?_, ?_⟩
    · have hparts : (10 * (s.digits / 10 : ℕ) : ℚ) = s.digits := by
        exact_mod_cast Nat.mul_div_cancel' (Nat.dvd_of_mod_eq_zero hten)
      rw [zpow_add_one₀ (by norm_num), ← hparts]
      ring
    · rw [positional, if_pos hten]
  · refine ⟨s.digits, s.exponent, hpos, rfl, ?_⟩
    rw [positional, if_neg hten]

/-- **A decimal written out** is whole, or has a point. -/
theorem positional_cases (s : Scientific) (hpos : 0 < s.digits) :
    (IsWhole s.positional ∧ (toNat s.positional : ℚ) = s.digits * 10 ^ s.exponent) ∨
      ∃ whole places, IsPointed s.positional whole places (s.digits * 10 ^ s.exponent) := by
  obtain ⟨d, t, hd, hvalue, htext⟩ := s.exists_positional_eq hpos
  have hdigits : ∀ c ∈ Nat.toDigits 10 d, isDigit c = true := fun _ => isDigit_of_mem_toDigits
  have hleading := exists_cons_toDigits hd
  rw [htext, ← hvalue]
  split
  · next ht =>
    refine .inl ⟨isWhole_append_zeros hdigits hleading _, ?_⟩
    rw [toNat_append, toNat_toDigits, toNat_replicate_zero, List.length_replicate, add_zero]
    push_cast
    rw [← zpow_natCast, Int.toNat_of_nonneg ht]
  next ht =>
  right
  obtain ⟨p, rfl⟩ : ∃ p : ℕ, t = -p := ⟨(-t).toNat, by omega⟩
  have hp : 0 < p := by omega
  have hplaces : (d * 10 ^ (-p : ℤ) : ℚ) = toNat (Nat.toDigits 10 d) / 10 ^ p := by
    rw [toNat_toDigits, zpow_neg, zpow_natCast, div_eq_mul_inv]
  rw [neg_neg, Int.toNat_natCast, hplaces]
  split
  · next hlt => exact ⟨_, _, isPointed_among hdigits hleading hp hlt⟩
  · next hge => exact ⟨_, _, isPointed_before hdigits hp (not_lt.mp hge)⟩

end Scientific

/-- **The text of a positive double** is its shortest decimal written out. -/
theorem ofFloat_eq {x : Float} {m : ℕ} {e : ℤ} (hx : Parts x m e) :
    ofFloat x = (Binary.ofParts m e).shortest.positional := by
  unfold ofFloat
  simp only [hx.isNaN_eq_false, hx.isInf_eq_false, hx.ofBits_toBits, if_neg hx.sign_ne_one,
    if_neg hx.isDouble.pos.ne', Bool.false_eq_true, if_false, List.nil_append]
  rfl

end Decimal

end FormulaSynth
