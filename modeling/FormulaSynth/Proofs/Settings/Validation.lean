import FormulaSynth.Settings.Validation
/-!
# Settings that are valid

Validating settings mends what is wrong with them, and there is nothing left to mend
afterwards: what comes out is valid (`Settings.valid_validate`), and valid settings come out
as they went in, without a warning (`Settings.Valid.validate_eq`).
-/

namespace FormulaSynth

namespace Settings

section Mend

variable {α : Type} {ok : α → Bool} {replacement value : α}

/-- What was mended is right, if its replacement is. -/
theorem ok_value_mend (h : ok replacement = true) (warning : α → String) (value : α) :
    ok (mend ok replacement warning value).value = true := by
  unfold mend
  split
  case isTrue hvalue => exact hvalue
  case isFalse => exact h

/-- What is right is not mended. -/
theorem mend_of_ok (h : ok value = true) (warning : α → String) :
    mend ok replacement warning value = ⟨value, []⟩ :=
  if_pos h

end Mend

/-- **Settings with every field as it should be.** -/
structure Valid (s : Settings) : Prop where
  sampleRate : sampleRateOk s.audio.sampleRate = true
  blockSize : blockSizeOk s.audio.blockSize = true
  channels : channelsOk s.audio.channels = true
  baseRate : rateOk s.clock.baseRate = true
  tempo : tempoOk s.clock.tempo = true
  ticksPerBeat : rateOk s.clock.ticksPerBeat = true
  w : macroOk s.macros.w = true
  x : macroOk s.macros.x = true
  y : macroOk s.macros.y = true
  z : macroOk s.macros.z = true
  formula : formulaOk s.formula = true

/-- The settings of a user who has set none are valid. -/
theorem valid_default : Valid {} := by
  constructor <;> decide +kernel

/-- **Every replacement is right**, so what was validated is valid. -/
theorem valid_validate (s : Settings) : s.validate.value.Valid where
  sampleRate := ok_value_mend (by decide) _ _
  blockSize := ok_value_mend (by decide) _ _
  channels := ok_value_mend (by decide) _ _
  baseRate := ok_value_mend (by decide) _ _
  tempo := ok_value_mend (by decide +kernel) _ _
  ticksPerBeat := ok_value_mend (by decide) _ _
  w := ok_value_mend (by decide) _ _
  x := ok_value_mend (by decide) _ _
  y := ok_value_mend (by decide) _ _
  z := ok_value_mend (by decide) _ _
  formula := ok_value_mend (by decide) _ _

/-- **Valid settings stay as they are**, and there is nothing to warn of. -/
theorem Valid.validate_eq {s : Settings} (h : s.Valid) : s.validate = ⟨s, []⟩ := by
  simp only [validate, mendAudio, mendClock, mendMacros, mendMacro, mendFormula,
    mend_of_ok h.sampleRate, mend_of_ok h.blockSize, mend_of_ok h.channels,
    mend_of_ok h.baseRate, mend_of_ok h.tempo, mend_of_ok h.ticksPerBeat,
    mend_of_ok h.w, mend_of_ok h.x, mend_of_ok h.y, mend_of_ok h.z, mend_of_ok h.formula,
    List.append_nil]

end Settings

end FormulaSynth
