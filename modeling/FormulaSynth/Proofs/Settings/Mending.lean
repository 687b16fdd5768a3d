import FormulaSynth.Proofs.Settings.Validation
import FormulaSynth.Vocabulary
/-!
# Settings mended field by field

Eleven fields are validated, of six types and under seven conditions, but each of them in the
same way: it is kept if it is right, and if not it is replaced by a value of its own and one
warning is given. A field therefore is a name for what it holds, what it has to satisfy and what
it is replaced by, `Settings.Field`; and validating settings is mending every field for itself,
one after the other (`Settings.Field.get_validate`, `Settings.warnings_validate`). What validation
does to settings is then what mending does to a value, and no field is looked at twice
(`Settings.validate_repairs`).

The macros are read and set by name when they are mended. This makes no difference, as what is set
by a name is what is read by it (`Settings.foldl_mendNamed`).
-/

namespace FormulaSynth

namespace Settings

/-! ## Fields -/

/-- **A field that is validated.** -/
inductive Field where
  | sampleRate | blockSize | channels
  | baseRate | tempo | ticksPerBeat
  | w | x | y | z
  | formula
  deriving DecidableEq

namespace Field

/-- Every field, in the order in which they are validated. -/
def all : List Field :=
  [sampleRate, blockSize, channels, baseRate, tempo, ticksPerBeat, w, x, y, z, formula]

/-- Every field is validated once. -/
theorem count_all (f : Field) : all.count f = 1 := by
  cases f <;> decide

/-- The type of what a field holds. -/
abbrev Value : Field → Type
  | sampleRate | baseRate | ticksPerBeat => UInt32
  | blockSize => Nat
  | channels => UInt16
  | tempo => Float
  | w | x | y | z => Int32
  | formula => String

/-- **What a field holds.** -/
def get (s : Settings) : (f : Field) → f.Value
  | sampleRate => s.audio.sampleRate
  | blockSize => s.audio.blockSize
  | channels => s.audio.channels
  | baseRate => s.clock.baseRate
  | tempo => s.clock.tempo
  | ticksPerBeat => s.clock.ticksPerBeat
  | w => s.macros.w
  | x => s.macros.x
  | y => s.macros.y
  | z => s.macros.z
  | formula => s.formula

/-- **What a field has to satisfy.** -/
def Right : (f : Field) → f.Value → Prop
  | sampleRate, v => 8000 ≤ v.toNat ∧ v.toNat ≤ 192000
  | blockSize, v => 1 ≤ v ∧ v ≤ 8192
  | channels, v => 1 ≤ v.toNat ∧ v.toNat ≤ 8
  | baseRate, v | ticksPerBeat, v => v ≠ 0
  | tempo, v => v.isFinite = true ∧ 0.0 < v ∧ v ≤ 999.0
  | w, v | x, v | y, v | z, v => 0 ≤ v.toInt ∧ v.toInt ≤ 255
  | formula, text => ∃ c ∈ text.toList, Text.isBlank c = false

/-- **What a field is replaced by** if it is not right. -/
def replacement : (f : Field) → f.Value
  | sampleRate => 44100
  | blockSize => 512
  | channels => 2
  | baseRate => 8000
  | tempo => 120.0
  | ticksPerBeat => 256
  | w | x | y | z => 0
  | formula => "t"

/-- What a field is called in a warning. -/
def name : Field → String
  | sampleRate => "sample_rate"
  | blockSize => "block_size"
  | channels => "channels"
  | baseRate => "base_rate"
  | tempo => "tempo"
  | ticksPerBeat => "ticks_per_beat"
  | w => "macro w"
  | x => "macro x"
  | y => "macro y"
  | z => "macro z"
  | formula => "formula"

/-- What a field holds as it is shown in a warning. -/
def shown : (f : Field) → f.Value → String
  | sampleRate, v | baseRate, v | ticksPerBeat, v | channels, v => toString v.toNat
  | blockSize, v => toString v
  | tempo, v => String.ofList (Decimal.ofFloat v)
  | w, v | x, v | y, v | z, v => toString v.toInt
  | formula, text => text

/-- **The warning about a field**: what it is, what it held, and what it holds instead. -/
def notice (f : Field) (v : f.Value) : String :=
  if f = formula then s!"Empty formula. Using default: {f.shown f.replacement}"
  else invalid f.name (f.shown v) (f.shown f.replacement)

/-! ## Mending a field -/

/-- Whether a field is right, as it is checked. -/
def ok : (f : Field) → f.Value → Bool
  | sampleRate => sampleRateOk
  | blockSize => blockSizeOk
  | channels => channelsOk
  | baseRate | ticksPerBeat => rateOk
  | tempo => tempoOk
  | w | x | y | z => macroOk
  | formula => formulaOk

/-- **The checks check what they should.** -/
theorem ok_iff {f : Field} {v : f.Value} : f.ok v = true ↔ f.Right v := by
  cases f with
  | sampleRate => simp [ok, Right, sampleRateOk, UInt32.le_iff_toNat_le]
  | blockSize => simp [ok, Right, blockSizeOk]
  | channels => simp [ok, Right, channelsOk, UInt16.le_iff_toNat_le]
  | baseRate | ticksPerBeat => simp [ok, Right, rateOk]
  | tempo => simp [ok, Right, tempoOk, and_assoc]
  | w | x | y | z => simp [ok, Right, macroOk, Int32.le_iff_toInt_le]
  | formula => simp [ok, Right, formulaOk, Text.allBlank]

instance (f : Field) (v : f.Value) : Decidable (f.Right v) :=
  decidable_of_iff _ ok_iff

/-- What replaces a field is right. -/
theorem right_replacement (f : Field) : f.Right f.replacement := by
  cases f <;> decide +kernel

/-- **A field, mended.** -/
def mended (s : Settings) (f : Field) : Mended f.Value :=
  mend f.ok f.replacement f.notice (f.get s)

end Field

open Settings.Field

section Mended

variable {s : Settings} {f : Field}

/-- A field that is right is kept, without a warning. -/
theorem mended_of_right (h : f.Right (f.get s)) : mended s f = ⟨f.get s, []⟩ :=
  if_pos (ok_iff.mpr h)

/-- A field that is not is replaced, with one warning. -/
theorem mended_of_not_right (h : ¬ f.Right (f.get s)) :
    mended s f = ⟨f.replacement, [⟨.warn, f.notice (f.get s)⟩]⟩ :=
  if_neg fun hok => h (ok_iff.mp hok)

theorem right_mended : f.Right (mended s f).value := by
  by_cases h : f.Right (f.get s)
  · rw [mended_of_right h]
    exact h
  · rw [mended_of_not_right h]
    exact f.right_replacement

end Mended

/-- **To validate settings is to mend their fields**, each for itself, and to leave the log mode
alone. -/
theorem validate_eq (s : Settings) : s.validate =
    ⟨⟨⟨(mended s .sampleRate).value, (mended s .blockSize).value, (mended s .channels).value⟩,
      ⟨(mended s .baseRate).value, (mended s .tempo).value, (mended s .ticksPerBeat).value⟩,
      ⟨(mended s .w).value, (mended s .x).value, (mended s .y).value, (mended s .z).value⟩,
      (mended s .formula).value, s.logMode⟩,
      (mended s .sampleRate).warnings ++ (mended s .blockSize).warnings ++
        (mended s .channels).warnings ++
      ((mended s .baseRate).warnings ++ (mended s .tempo).warnings ++
        (mended s .ticksPerBeat).warnings) ++
      ((mended s .w).warnings ++ (mended s .x).warnings ++ (mended s .y).warnings ++
        (mended s .z).warnings) ++
      (mended s .formula).warnings⟩ :=
  rfl

theorem get_validate (s : Settings) (f : Field) : f.get s.validate.value = (mended s f).value := by
  rw [validate_eq]
  cases f <;> rfl

/-- The fields that are not right. -/
def broken (s : Settings) : List Field :=
  Field.all.filter fun f => ¬ f.Right (f.get s)

/-- **There is one warning for every field that is not right**, in the order of the fields. -/
theorem warnings_validate (s : Settings) :
    s.validate.warnings = s.broken.map fun f => ⟨.warn, f.notice (f.get s)⟩ := by
  have hall : s.validate.warnings = Field.all.flatMap fun f => (mended s f).warnings := by
    rw [validate_eq]
    simp only [Field.all, List.flatMap_cons, List.flatMap_nil, List.append_nil, List.append_assoc]
  rw [hall, broken]
  generalize Field.all = fields
  induction fields with
  | nil => rfl
  | cons f fields ih =>
    rw [List.flatMap_cons, ih]
    by_cases h : f.Right (f.get s)
    · simp [mended_of_right h, h]
    · simp [mended_of_not_right h, h]

/-! ## Macros by name -/

/-- **A macro mended by its name**, with what has been mended before. A name that is none of a
macro is passed over. -/
def mendNamed (before : Mended Macros) (name : String) : Mended Macros :=
  match before.value.get? name with
  | none => before
  | some value =>
    if macroOk value then before
    else
      ⟨(before.value.set? name 0).getD before.value,
        before.warnings ++ [⟨.warn, invalid s!"macro {name}" (toString value.toInt) "0"⟩]⟩

/-- A macro that is set to what it is stays as it is. -/
theorem set?_of_get? {m : Macros} {name : String} {value : Int32} (h : m.get? name = some value) :
    m.set? name value = some m := by
  unfold Macros.get? at h
  unfold Macros.set?
  split at h <;> cases h <;> rfl

/-- A macro mended by its name is set to its mended value. -/
theorem mendNamed_eq {before : Mended Macros} {name : String} {value : Int32}
    (h : before.value.get? name = some value) : mendNamed before name =
      ⟨(before.value.set? name (mendMacro name value).value).getD before.value,
        before.warnings ++ (mendMacro name value).warnings⟩ := by
  unfold mendNamed mendMacro mend
  rw [h]
  cases hok : macroOk value with
  | true => simp [hok, set?_of_get? h]
  | false => simp [hok]

/-- **Mending the macros one after the other by name** mends each of them. -/
theorem foldl_mendNamed (m : Macros) : macroNames.foldl mendNamed ⟨m, []⟩ = mendMacros m := by
  let w := mendMacro "w" m.w
  let x := mendMacro "x" m.x
  let y := mendMacro "y" m.y
  let z := mendMacro "z" m.z
  have hw : mendNamed ⟨m, []⟩ "w" = ⟨{ m with w := w.value }, w.warnings⟩ := mendNamed_eq rfl
  have hx : mendNamed ⟨{ m with w := w.value }, w.warnings⟩ "x" =
      ⟨{ m with w := w.value, x := x.value }, w.warnings ++ x.warnings⟩ := mendNamed_eq rfl
  have hy : mendNamed ⟨{ m with w := w.value, x := x.value }, w.warnings ++ x.warnings⟩ "y" =
      ⟨⟨w.value, x.value, y.value, m.z⟩, w.warnings ++ x.warnings ++ y.warnings⟩ :=
    mendNamed_eq rfl
  have hz : mendNamed ⟨⟨w.value, x.value, y.value, m.z⟩, w.warnings ++ x.warnings ++ y.warnings⟩
      "z" = mendMacros m := mendNamed_eq rfl
  rw [macroNames, List.foldl_cons, List.foldl_cons, List.foldl_cons, List.foldl_cons,
    List.foldl_nil, hw, hx, hy, hz]

/-! ## Validating settings -/

/-- **Validating settings repairs what is broken and nothing else.** Afterwards every field is
right. A field that was right is what it was, and so is the log mode; a field that was not is what
replaces it. There is one warning for every field that was not right, in the order of the fields,
which names the field. The macros, mended by name and one after the other, are mended as any field
is. And validating a second time changes nothing and warns of nothing. -/
theorem validate_repairs (s : Settings) :
    (∀ f : Field, f.Right (f.get s.validate.value)) ∧
    (∀ f : Field, f.Right (f.get s) → f.get s.validate.value = f.get s) ∧
    s.validate.value.logMode = s.logMode ∧
    (∀ f : Field, ¬ f.Right (f.get s) → f.get s.validate.value = f.replacement) ∧
    s.validate.warnings = s.broken.map (fun f => ⟨.warn, f.notice (f.get s)⟩) ∧
    (∀ f : Field, s.broken.count f = if f.Right (f.get s) then 0 else 1) ∧
    macroNames.foldl mendNamed ⟨s.macros, []⟩ = mendMacros s.macros ∧
    s.validate.value.validate = ⟨s.validate.value, []⟩ := by
  refine ⟨fun f => ?right, fun f h => ?kept, rfl, fun f h => ?replaced, s.warnings_validate,
    fun f => ?once, foldl_mendNamed s.macros, s.valid_validate.validate_eq⟩
  case right =>
    rw [get_validate]
    exact right_mended
  case kept => rw [get_validate, mended_of_right h]
  case replaced => rw [get_validate, mended_of_not_right h]
  case once =>
    rw [broken]
    split
    case isTrue h => exact List.count_eq_zero.mpr fun hmem => by simp [h] at hmem
    case isFalse h => rw [List.count_filter (by simpa using h), f.count_all]

/-- Settings with eight fields out of their ranges and a macro that is within its own. -/
theorem validate_repairs_eight :
    let s : Settings :=
      { audio := { sampleRate := 10, blockSize := 0, channels := 40 }
        clock := { tempo := 0.0 / 0.0, ticksPerBeat := 0 }
        macros := { x := 300, y := -1, z := 17 }
        formula := "   "
        logMode := .silent }
    s.broken = [.sampleRate, .blockSize, .channels, .tempo, .ticksPerBeat, .x, .y, .formula] ∧
    Field.Right .z s.macros.z ∧ s.validate.value.macros.z = 17 ∧
    ¬ Field.Right .tempo s.clock.tempo ∧ s.validate.value.clock.tempo = 120.0 ∧
    s.validate.value.logMode = .silent ∧ s.validate.warnings.length = 8 ∧
    s.validate.value.validate = ⟨s.validate.value, []⟩ := by
  intro s
  have hbroken : s.broken =
      [.sampleRate, .blockSize, .channels, .tempo, .ticksPerBeat, .x, .y, .formula] := by
    decide +kernel
  have hz : Field.Right .z s.macros.z := by decide
  have htempo : ¬ Field.Right .tempo s.clock.tempo := by decide +kernel
  obtain ⟨-, hkept, hmode, hreplaced, hwarnings, -, -, hagain⟩ := validate_repairs s
  exact ⟨hbroken, hz, hkept .z hz, htempo, hreplaced .tempo htempo, hmode,
    by rw [hwarnings, hbroken]; rfl, hagain⟩

end Settings

end FormulaSynth
