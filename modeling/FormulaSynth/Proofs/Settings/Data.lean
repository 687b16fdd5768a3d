import FormulaSynth.Proofs.Settings.Validation
import FormulaSynth.Settings.Document
/-!
# The plain data of settings

Between settings and their document there is the plain data that the document says. It is given
here section by section (`Settings.data`). The sections of a document come to that data
(`Settings.contents_data`), and the data is decoded to the settings again
(`Settings.Valid.ofData?_data`).
-/

namespace FormulaSynth

/-! ## Numbers within bounds -/

namespace Data

theorem intWithin?_integer {low high i : Int} (hlow : low ≤ i) (hhigh : i ≤ high) :
    (integer i).intWithin? low high = some i :=
  if_pos ⟨hlow, hhigh⟩

theorem uint16?_toNat (n : UInt16) : (integer n.toNat).uint16? = some n := by
  have hlt : n.toNat < 65536 := n.toNat_lt
  rw [uint16?, intWithin?_integer (by omega) (by omega), Option.map_some, Int.toNat_natCast,
    UInt16.ofNat_toNat]

theorem uint32?_toNat (n : UInt32) : (integer n.toNat).uint32? = some n := by
  have hlt : n.toNat < 4294967296 := n.toNat_lt
  rw [uint32?, intWithin?_integer (by omega) (by omega), Option.map_some, Int.toNat_natCast,
    UInt32.ofNat_toNat]

theorem nat64?_of_le {n : Nat} (h : n ≤ 0xFFFFFFFFFFFFFFFF) : (integer n).nat64? = some n := by
  rw [nat64?, intWithin?_integer (by omega) (by omega), Option.map_some, Int.toNat_natCast]

theorem int32?_toInt (n : Int32) : (integer n.toInt).int32? = some n := by
  have hlow : -2147483648 ≤ n.toInt := n.le_toInt
  have hhigh : n.toInt < 2147483648 := n.toInt_lt
  rw [int32?, intWithin?_integer hlow (by omega), Option.map_some, Int32.ofInt_toInt]

end Data

namespace Settings

variable {s : Settings}

/-- **What a document of settings says**, section by section. -/
def data (s : Settings) : List (String × List (String × Data)) :=
  [("audio",
     [("sample_rate", .integer s.audio.sampleRate.toNat),
      ("block_size", .integer s.audio.blockSize),
      ("channels", .integer s.audio.channels.toNat)]),
   ("clock",
     [("base_rate", .integer s.clock.baseRate.toNat),
      ("tempo", .real s.clock.tempo),
      ("ticks_per_beat", .integer s.clock.ticksPerBeat.toNat)]),
   ("macros",
     [("w", .integer s.macros.w.toInt),
      ("x", .integer s.macros.x.toInt),
      ("y", .integer s.macros.y.toInt),
      ("z", .integer s.macros.z.toInt)]),
   ("formula", [("text", .text s.formula)]),
   ("logging", [("mode", .text s.logMode.name)])]

/-- A line that assigns a value to a field. -/
def fieldOf (field : String × Data) : Toml.Assignment :=
  ⟨[], field.1, .value field.2⟩

/-- A section with a header and its fields. -/
def sectionOf (fields : String × List (String × Data)) : Toml.Section :=
  ⟨false, [], fields.1, fields.2.map fieldOf⟩

/-- **The sections come to the data.** -/
theorem contents_data (s : Settings) :
    (Toml.contents [] (s.data.map sectionOf)).map Toml.entriesToData =
      some (s.data.map fun fields => (fields.1, .record fields.2)) :=
  rfl

/-- **The data is decoded to the settings.** -/
theorem Valid.ofData?_data (h : s.Valid) :
    ofData? dialect (.record (s.data.map fun fields => (fields.1, .record fields.2))) =
      some s := by
  have hblock : s.audio.blockSize ≤ 0xFFFFFFFFFFFFFFFF := by
    have hsize := h.blockSize
    simp only [blockSizeOk, Bool.and_eq_true, decide_eq_true_eq] at hsize
    omega
  simp [ofData?, data, Data.fields?, Data.valuesOf, Data.field?, AudioSettings.ofData?,
    ClockSettings.ofData?, Macros.ofData?, formulaOfData?, logModeOfData?, Data.choice?,
    Data.uint32?_toNat, Data.uint16?_toNat, Data.nat64?_of_le hblock, Data.int32?_toInt,
    Data.float?, Data.text?]

end Settings

end FormulaSynth
