import FormulaSynth.Proofs.Decimal.Text
import FormulaSynth.Proofs.Toml.Lines
/-!
# Numbers are read as they were written

The text of a whole number is read as that number (`Toml.isScalar_whole`), and a text with a point
as the double that it names (`Toml.isScalar_pointed`). Before a value is taken for a number it is
tried as a date or a time. It is neither, because what stands behind its first digits is neither
a dash nor a colon.
-/

namespace FormulaSynth

namespace Toml

open Scanner Decimal

variable {c : Char} {ds rest places : List Char}

/-! ## Neither dates nor times -/

section Digits

variable (hds : ∀ d ∈ ds, isDigit d = true) (hc : isDigit c = false)
include hds hc

/-- Behind digits of fixed width there is another digit, or what stands behind all of them. -/
theorem literal_of_fixed {sep : Char} (hsep : isDigit sep = false) (hne : c ≠ sep)
    {width low high n : ℕ} {cs : List Char}
    (h : fixed width low high (ds ++ c :: rest) = some (n, cs)) : literal [sep] cs = none := by
  have hliteral : ∀ d cs, d ≠ sep → literal [sep] (d :: cs) = none := fun d cs hd =>
    if_neg (Ne.symm hd)
  unfold fixed at h
  dsimp only at h
  split at h
  case isFalse => cases h
  next hfixed =>
  simp only [Bool.and_eq_true, decide_eq_true_eq] at hfixed
  obtain ⟨-, rfl⟩ := Prod.ext_iff.mp (Option.some.inj h)
  have hle : width ≤ ds.length := by
    by_contra hlt
    obtain ⟨k, hk⟩ := Nat.exists_eq_add_of_lt (not_le.mp hlt)
    have htake : (ds ++ c :: rest).take width = ds ++ c :: rest.take k := by
      rw [hk, Nat.add_assoc, List.take_length_add_append]
      rfl
    have hmem : c ∈ (ds ++ c :: rest).take width := by
      rw [htake]
      exact List.mem_append_right _ List.mem_cons_self
    have hdigit := List.all_eq_true.mp hfixed.1.1.2 c hmem
    rw [hc] at hdigit
    cases hdigit
  rw [List.drop_append_of_le_length hle]
  cases hdrop : ds.drop width with
  | nil => exact hliteral c _ hne
  | cons d _ =>
    exact hliteral d _ (ne_of_kind (hds d (List.mem_of_mem_drop (hdrop ▸ List.mem_cons_self))) hsep)

theorem moment?_eq_none (hdash : c ≠ '-') (hcolon : c ≠ ':') :
    moment? (ds ++ c :: rest) = none := by
  have hdate : date? (ds ++ c :: rest) = none := by
    unfold date?
    cases h : fixed 4 0 9999 (ds ++ c :: rest) with
    | none => rfl
    | some found =>
      have hliteral := literal_of_fixed hds hc rfl hdash h
      simp [hliteral]
  have htime : time? (ds ++ c :: rest) = none := by
    unfold time?
    cases h : fixed 2 0 23 (ds ++ c :: rest) with
    | none => rfl
    | some found =>
      have hliteral := literal_of_fixed hds hc rfl hcolon h
      simp [hliteral]
  rw [moment?, hdate]
  exact htime

/-! ## Runs of digits -/

theorem moreDigits_append (hunderscore : c ≠ '_') :
    moreDigits isDigit (ds ++ c :: rest) = some (ds, c :: rest) := by
  induction ds with
  | nil =>
    rw [List.nil_append, moreDigits.eq_2 _ _ _ fun _ _ h => absurd h hunderscore,
      if_neg (by rw [hc]; decide), if_neg hunderscore]
  | cons d ds ih =>
    have hd : isDigit d = true := hds d List.mem_cons_self
    have hne : d ≠ '_' := ne_of_kind hd rfl
    rw [List.cons_append, moreDigits.eq_2 _ _ _ fun _ _ h => absurd h hne, if_pos hd,
      ih fun d hd => hds d (List.mem_cons_of_mem _ hd)]
    rfl

theorem digits_append (hne : ds ≠ []) (hunderscore : c ≠ '_') :
    digits isDigit (ds ++ c :: rest) = some (ds, c :: rest) := by
  obtain ⟨d, ds, rfl⟩ := List.exists_cons_of_ne_nil hne
  rw [List.cons_append, digits, if_pos (hds d List.mem_cons_self),
    moreDigits_append (fun d hd => hds d (List.mem_cons_of_mem _ hd)) hc hunderscore]
  rfl

end Digits

theorem decimalDigits_append (hds : IsWhole ds) (hc : isDigit c = false) (hunderscore : c ≠ '_') :
    decimalDigits (ds ++ c :: rest) = some (ds, c :: rest) := by
  obtain rfl | ⟨d, ds, rfl, hd⟩ := hds.leading
  · rfl
  · rw [List.cons_append, decimalDigits.eq_2 _ fun _ h => absurd (List.cons.inj h).1 hd]
    exact digits_append hds.digits hc (List.cons_ne_nil _ _) hunderscore

/-! ## Numbers -/

theorem exists_cons_of_isWhole (hds : IsWhole ds) : ∃ d cs, ds = d :: cs ∧ isDigit d = true := by
  obtain h | ⟨d, cs, h, -⟩ := hds.leading
  · exact ⟨'0', [], h, rfl⟩
  · exact ⟨d, cs, h, hds.digits d (h ▸ List.mem_cons_self)⟩

/-- **What begins with the digits of a whole number** is a decimal number, if neither another
base nor a date or a time is told by what stands behind them. -/
theorem scalar_eq_decimal (hds : IsWhole ds) (hc : c = '.' ∨ c = '\n') :
    scalar (ds ++ c :: rest) = decimal (ds ++ c :: rest) := by
  have hdigit : isDigit c = false := by obtain rfl | rfl := hc <;> rfl
  have hmoment : moment? (ds ++ c :: rest) = none := by
    refine moment?_eq_none hds.digits hdigit ?_ ?_ <;> obtain rfl | rfl := hc <;> decide
  have hbase : ∀ e, isDigit e = false → e ≠ '.' → e ≠ '\n' → ∀ cs,
      ds ++ c :: rest ≠ '0' :: e :: cs := by
    intro e he hpoint hnewline cs h
    obtain rfl | ⟨d, ds, rfl, hd⟩ := hds.leading
    · obtain rfl : c = e := (List.cons.inj (List.cons.inj h).2).1
      exact hc.elim hpoint hnewline
    · exact hd (List.cons.inj h).1
  have hnumber : number (ds ++ c :: rest) = decimal (ds ++ c :: rest) :=
    number.eq_4 _ (hbase 'x' rfl (by decide) (by decide)) (hbase 'o' rfl (by decide) (by decide))
      (hbase 'b' rfl (by decide) (by decide))
  obtain ⟨d, cs, rfl, hd⟩ := exists_cons_of_isWhole hds
  rw [List.cons_append] at hmoment hnumber ⊢
  simp only [scalar, ne_of_kind hd (e := '"') rfl, ne_of_kind hd (e := '\'') rfl,
    ne_of_kind hd (e := 't') rfl, ne_of_kind hd (e := 'f') rfl, hmoment, hnumber,
    decide_false, Bool.or_false, Bool.false_eq_true, if_false]

/-- A decimal number without a sign. -/
theorem decimal_append (hds : IsWhole ds) (hc : isDigit c = false) (hunderscore : c ≠ '_') :
    decimal (ds ++ c :: rest) = (fraction (c :: rest)).bind fun (places, cs) =>
      (power cs).bind fun (shift, cs) =>
        if places.isEmpty && shift.isNone then (int64? (toNat ds)).bind fun d => some (d, cs)
        else (signed false (toFloat (toNat (ds ++ places))
          (shift.getD 0 - (places.length : ℤ)))).bind fun d => some (d, cs) := by
  have hdigits : decimalDigits (ds ++ c :: rest) = some (ds, c :: rest) :=
    decimalDigits_append hds hc hunderscore
  obtain ⟨d, cs, rfl, hd⟩ := exists_cons_of_isWhole hds
  rw [List.cons_append] at hdigits ⊢
  have hsign : sign (d :: (cs ++ c :: rest)) = (false, d :: (cs ++ c :: rest)) :=
    sign.eq_3 _ (fun _ h => ne_of_kind hd rfl (List.cons.inj h).1)
      fun _ h => ne_of_kind hd rfl (List.cons.inj h).1
  unfold decimal
  rw [hsign]
  dsimp only
  split
  · next heq => exact absurd (List.cons.inj heq).1 (ne_of_kind hd rfl)
  · next heq => exact absurd (List.cons.inj heq).1 (ne_of_kind hd rfl)
  · rw [hdigits]
    rfl

/-- A number begins neither with a blank nor with a bracket. -/
theorem exists_cons_number (hds : IsWhole ds) (cs : List Char) :
    ∃ v vs, ds ++ cs = v :: vs ∧ isSpace v = false ∧ v ≠ '[' ∧ v ≠ '\x7b' := by
  obtain ⟨d, ds, rfl, hd⟩ := exists_cons_of_isWhole hds
  refine ⟨d, ds ++ cs, rfl, ?_, ne_of_kind hd rfl, ne_of_kind hd rfl⟩
  simp [isSpace, ne_of_kind hd (e := ' ') rfl, ne_of_kind hd (e := '\t') rfl]

/-- **The text of a whole number** is read as the number. -/
theorem isScalar_whole (hds : IsWhole ds) (h : toNat ds < 2 ^ 63) (rest : List Char) :
    IsScalar ds ('\n' :: rest) (.integer (toNat ds)) := by
  have hint : int64? (toNat ds) = some (.integer (toNat ds)) := if_pos (by omega)
  refine ⟨by simpa using exists_cons_number hds [], ?_⟩
  rw [scalar_eq_decimal hds (.inr rfl), decimal_append hds rfl (by decide)]
  simp [fraction, power, hint]

/-- **A text with a point** is read as the double that it names. -/
theorem isScalar_pointed {text : List Char} {v : ℚ} (h : IsPointed text ds places v) {x : Float}
    (hx : toFloat (toNat (ds ++ places)) (-places.length) = x) (hinf : x.isInf = false) :
    IsScalar text ('\n' :: rest) (.real x) := by
  have hfraction : fraction ('.' :: (places ++ '\n' :: rest)) = some (places, '\n' :: rest) :=
    digits_append h.digits rfl h.ne_nil (by decide)
  rw [h.text_eq]
  refine ⟨exists_cons_number h.isWhole _, ?_⟩
  rw [List.append_assoc, List.cons_append, scalar_eq_decimal h.isWhole (.inl rfl),
    decimal_append h.isWhole rfl (by decide), hfraction]
  simp [power, h.ne_nil, hx, signed, hinf]

end Toml

end FormulaSynth
