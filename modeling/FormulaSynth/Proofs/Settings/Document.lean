import FormulaSynth.Proofs.Settings.Data
import FormulaSynth.Proofs.Toml.Numbers
import FormulaSynth.Settings.Store
/-!
# Documents of settings are read as they were written

Valid settings come back from the document that is written for them (`Settings.read_write`). They
have to be valid for the tempo: a number that is not finite has no text that could be read.

A document is as good with white space around it, as long as it can be read at all. Not every
blank character may stand in a document, but where one may, it makes no difference
(`Settings.eq_of_read_of_not_differ`).
-/

namespace FormulaSynth

namespace Settings

open Toml Decimal

variable {s s' : Settings} {text rest : List Char}

/-! ## Values -/

/-- The text of a natural number is a value. -/
theorem isScalar_natText {n : Nat} (h : n < 2 ^ 63) (rest : List Char) :
    IsScalar (natText n) ('\n' :: rest) (.integer n) := by
  have hvalue := isScalar_whole (isWhole_toDigits n) (by rwa [toNat_toDigits]) rest
  rwa [toNat_toDigits] at hvalue

/-- The text of a macro is a value. -/
theorem isScalar_macroText {n : Int32} (h : macroOk n = true) (rest : List Char) :
    IsScalar (ofInt n.toInt) ('\n' :: rest) (.integer n.toInt) := by
  simp only [macroOk, Bool.and_eq_true, decide_eq_true_eq, Int32.le_iff_toInt_le] at h
  obtain ⟨k, hk⟩ := Int.eq_ofNat_of_zero_le h.1
  have hle : n.toInt ≤ 255 := h.2
  rw [hk] at hle ⊢
  exact isScalar_natText (by omega) rest

/-- **The text of a tempo** is a value. -/
theorem isScalar_floatText {x : Float} (h : tempoOk x = true) (rest : List Char) :
    IsScalar (floatText x) ('\n' :: rest) (.real x) := by
  simp only [tempoOk, Bool.and_eq_true, decide_eq_true_eq] at h
  obtain ⟨m, e, hx⟩ := exists_parts h.1.1 h.1.2
  have hround := Binary.roundsTo_shortest hx.isDouble
  rw [floatText, hx.isFinite_eq_true, Bool.true_and, ofFloat_eq hx]
  obtain ⟨hwhole, hvalue⟩ | ⟨whole, places, hpointed⟩ :=
    (Binary.ofParts m e).shortest.positional_cases (Binary.digits_shortest_pos hx.isDouble)
  · have hpoint : (Binary.ofParts m e).shortest.positional.contains '.' = false := by
      rw [Bool.eq_false_iff, ne_eq, List.contains_iff_mem]
      exact fun hmem => absurd (hwhole.digits _ hmem) (by decide)
    rw [← hvalue] at hround
    rw [hpoint]
    exact isScalar_pointed hwhole.isPointed (hwhole.isPointed.toFloat_eq hx hround)
      hx.isInf_eq_false
  · have hpoint : (Binary.ofParts m e).shortest.positional.contains '.' = true := by
      rw [List.contains_iff_mem, hpointed.text_eq]
      exact List.mem_append_right _ List.mem_cons_self
    rw [hpoint]
    exact isScalar_pointed hpointed (hpointed.toFloat_eq hx hround) hx.isInf_eq_false

/-! ## Lines -/

/-- Whether a name may stand without quotes. -/
def isBare (name : String) : Bool := !name.toList.isEmpty && name.toList.all isBareChar

theorem ne_nil_of_isBare {name : String} (h : isBare name = true) : name.toList ≠ [] := by
  rw [isBare, Bool.and_eq_true, Bool.not_eq_true'] at h
  exact List.isEmpty_eq_false_iff.mp h.1

theorem isBareChar_of_isBare {name : String} (h : isBare name = true) :
    ∀ c ∈ name.toList, isBareChar c = true := by
  rw [isBare, Bool.and_eq_true] at h
  exact List.all_eq_true.mp h.2

/-- A field and the text that is written for it. -/
inductive Written : String × List Char → String × Data → Prop
  | intro (name : String) {text : List Char} {d : Data} (hname : isBare name = true)
      (htext : ∀ rest, IsScalar text ('\n' :: rest) d) : Written (name, text) (name, d)

theorem lines_newline (fuel : Nat) (rest : List Char) :
    lines (fuel + 1) ('\n' :: rest) = lines fuel rest :=
  lines_of_lineEnd (skipSpaces_of_not_isSpace rfl _) (by decide) rfl

/-- **A field** is read with its value. -/
theorem lines_fieldLine {fuel : Nat} {field : String × List Char} {d : String × Data}
    (h : Written field d) :
    lines (fuel + 1) (fieldLine field.1 field.2 ++ rest) =
      (lines fuel rest).bind fun (under, later) => some (fieldOf d :: under, later) := by
  obtain ⟨name, hname, htext⟩ := h
  rename_i text d
  have hline : fieldLine name text ++ rest =
      name.toList ++ ' ' :: '=' :: ' ' :: (text ++ '\n' :: rest) := by
    simp [fieldLine]
  rw [hline, lines_field (isBareChar_of_isBare hname) (ne_nil_of_isBare hname) (htext rest),
    String.ofList_toList]
  rfl

theorem lines_fields {fuel : Nat} {fields : List (String × List Char)} {ds : List (String × Data)}
    (h : List.Forall₂ Written fields ds) :
    lines (fuel + ds.length)
        (fields.flatMap (fun field => fieldLine field.1 field.2) ++ rest) =
      (lines fuel rest).bind fun (under, later) => some (ds.map fieldOf ++ under, later) := by
  induction h with
  | nil =>
    show lines fuel rest = _
    cases lines fuel rest <;> rfl
  | @cons field d fields ds hfield _ ih =>
    rw [List.flatMap_cons, List.append_assoc, List.length_cons, ← Nat.add_assoc,
      lines_fieldLine hfield, ih]
    cases lines fuel rest <;> rfl

/-- **A section** is read with its fields. -/
theorem lines_sectionText (n fuel : Nat) {name : String}
    {fields : List (String × List Char)} {ds : List (String × Data)} (hname : isBare name = true)
    (h : List.Forall₂ Written fields ds) (hn : n = fuel + ds.length + 1) :
    lines n (sectionText name fields ++ rest) =
      (lines fuel rest).bind fun (under, later) =>
        some ([], ⟨false, [], name, ds.map fieldOf ++ under⟩ :: later) := by
  have hsection : sectionText name fields ++ rest = '[' :: (name.toList ++ ']' :: '\n' ::
      (fields.flatMap (fun field => fieldLine field.1 field.2) ++ rest)) := by
    simp [sectionText]
  rw [hsection, hn, lines_header (isBareChar_of_isBare hname) (ne_nil_of_isBare hname),
    lines_fields h, String.ofList_toList]
  cases lines fuel rest <;> rfl

/-! ## The fields -/

theorem written_audio (h : s.Valid) : List.Forall₂ Written
    [("sample_rate", natText s.audio.sampleRate.toNat), ("block_size", natText s.audio.blockSize),
      ("channels", natText s.audio.channels.toNat)]
    [("sample_rate", .integer s.audio.sampleRate.toNat), ("block_size", .integer s.audio.blockSize),
      ("channels", .integer s.audio.channels.toNat)] := by
  have hsampleRate := s.audio.sampleRate.toNat_lt
  have hchannels := s.audio.channels.toNat_lt
  have hblock : s.audio.blockSize ≤ 8192 := by
    have hsize := h.blockSize
    simp only [blockSizeOk, Bool.and_eq_true, decide_eq_true_eq] at hsize
    exact hsize.2
  exact .cons (.intro _ rfl (isScalar_natText (by omega))) <|
    .cons (.intro _ rfl (isScalar_natText (by omega))) <|
    .cons (.intro _ rfl (isScalar_natText (by omega))) .nil

theorem written_clock (h : s.Valid) : List.Forall₂ Written
    [("base_rate", natText s.clock.baseRate.toNat), ("tempo", floatText s.clock.tempo),
      ("ticks_per_beat", natText s.clock.ticksPerBeat.toNat)]
    [("base_rate", .integer s.clock.baseRate.toNat), ("tempo", .real s.clock.tempo),
      ("ticks_per_beat", .integer s.clock.ticksPerBeat.toNat)] := by
  have hbaseRate := s.clock.baseRate.toNat_lt
  have hticks := s.clock.ticksPerBeat.toNat_lt
  exact .cons (.intro _ rfl (isScalar_natText (by omega))) <|
    .cons (.intro _ rfl (isScalar_floatText h.tempo)) <|
    .cons (.intro _ rfl (isScalar_natText (by omega))) .nil

theorem written_macros (h : s.Valid) : List.Forall₂ Written
    [("w", ofInt s.macros.w.toInt), ("x", ofInt s.macros.x.toInt), ("y", ofInt s.macros.y.toInt),
      ("z", ofInt s.macros.z.toInt)]
    [("w", .integer s.macros.w.toInt), ("x", .integer s.macros.x.toInt),
      ("y", .integer s.macros.y.toInt), ("z", .integer s.macros.z.toInt)] :=
  .cons (.intro _ rfl (isScalar_macroText h.w)) <| .cons (.intro _ rfl (isScalar_macroText h.x)) <|
    .cons (.intro _ rfl (isScalar_macroText h.y)) <|
    .cons (.intro _ rfl (isScalar_macroText h.z)) .nil

theorem written_formula (s : Settings) : List.Forall₂ Written
    [("text", Toml.quote s.formula.toList)] [("text", .text s.formula)] := by
  have hvalue : ∀ rest,
      IsScalar (Toml.quote s.formula.toList) ('\n' :: rest) (.text s.formula) := by
    intro rest
    have hquote : IsScalar _ ('\n' :: rest) _ :=
      isScalar_quote s.formula.toList (by simp) (by simp)
    rwa [String.ofList_toList] at hquote
  exact .cons (.intro _ rfl hvalue) .nil

/-! ## The document -/

/-- The document up to the last field. -/
def beginning (s : Settings) : List Char :=
  sectionText "audio"
    [("sample_rate", natText s.audio.sampleRate.toNat),
     ("block_size", natText s.audio.blockSize),
     ("channels", natText s.audio.channels.toNat)] ++
  '\n' :: (sectionText "clock"
    [("base_rate", natText s.clock.baseRate.toNat),
     ("tempo", floatText s.clock.tempo),
     ("ticks_per_beat", natText s.clock.ticksPerBeat.toNat)] ++
  '\n' :: (sectionText "macros"
    [("w", ofInt s.macros.w.toInt),
     ("x", ofInt s.macros.x.toInt),
     ("y", ofInt s.macros.y.toInt),
     ("z", ofInt s.macros.z.toInt)] ++
  '\n' :: (sectionText "formula" [("text", Toml.quote s.formula.toList)] ++
  '\n' :: sectionText "logging" [])))

/-- The last field, without the line break behind it. -/
def lastField (s : Settings) : List Char :=
  "mode".toList ++ " = ".toList ++ Toml.quote s.logMode.name.toList

theorem write_eq (s : Settings) : write s = s.beginning ++ (s.lastField ++ ['\n']) := by
  have hlogging : sectionText "logging" [("mode", Toml.quote s.logMode.name.toList)] =
      sectionText "logging" [] ++ (s.lastField ++ ['\n']) := by
    rw [sectionText, sectionText, List.flatMap_nil, List.append_nil, List.flatMap_singleton]
    rfl
  rw [write, hlogging, beginning]
  simp only [List.append_assoc, List.cons_append]

/-- The sections up to the last field are read, whatever follows them. -/
theorem Valid.lines_beginning (h : s.Valid) (fuel : Nat) (rest : List Char) :
    lines (fuel + 20) (s.beginning ++ rest) =
      (lines fuel rest).bind fun (under, later) => some ([], (s.data.dropLast.map sectionOf) ++
        ⟨false, [], "logging", under⟩ :: later) := by
  rw [beginning]
  simp only [List.append_assoc, List.cons_append]
  rw [lines_sectionText (fuel + 20) (fuel + 16) rfl (written_audio h) rfl,
    lines_newline (fuel + 15),
    lines_sectionText (fuel + 15) (fuel + 11) rfl (written_clock h) rfl,
    lines_newline (fuel + 10),
    lines_sectionText (fuel + 10) (fuel + 5) rfl (written_macros h) rfl,
    lines_newline (fuel + 4),
    lines_sectionText (fuel + 4) (fuel + 2) rfl (written_formula s) rfl,
    lines_newline (fuel + 1), lines_sectionText (fuel + 1) fuel rfl .nil rfl]
  cases lines fuel rest <;> rfl

/-- The last field is read, whatever follows it but a quote. -/
theorem lines_lastField (s : Settings) (fuel : Nat) (hrest : rest.head? ≠ some '"')
    (hrest' : rest.head? ≠ some '\'') :
    lines (fuel + 1) (s.lastField ++ rest) =
      (lineEnd? rest).bind fun cs => (lines fuel cs).bind fun (under, later) =>
        some (fieldOf ("mode", .text s.logMode.name) :: under, later) := by
  have hmode : isBare "mode" = true := rfl
  have hfield : s.lastField ++ rest = "mode".toList ++ ' ' :: '=' :: ' ' ::
      (Toml.quote s.logMode.name.toList ++ rest) := by
    rw [lastField, List.append_assoc, List.append_assoc]
    rfl
  have hquote := isScalar_quote s.logMode.name.toList hrest hrest'
  rw [String.ofList_toList] at hquote
  rw [hfield, lines_field (isBareChar_of_isBare hmode) (ne_nil_of_isBare hmode) hquote,
    String.ofList_toList]
  rfl

/-- **The lines of a document** are the sections of the data. -/
theorem Valid.lines_write (h : s.Valid) : lines 22 (write s) = some ([], s.data.map sectionOf) := by
  rw [write_eq, h.lines_beginning 2, lines_lastField s 1 (by decide) (by decide)]
  rfl

/-- A document has as many characters as lines. -/
theorem length_write (s : Settings) : 21 ≤ (write s).length := by
  have hsection : "audio".toList.length = 5 := rfl
  have hfield : "sample_rate".toList.length = 11 := rfl
  have hequals : " = ".toList.length = 3 := rfl
  rw [write, sectionText, List.flatMap_cons, fieldLine]
  simp only [List.length_append, List.length_cons, hsection, hfield, hequals]
  omega

/-- A document is read by its lines, if it begins with no mark. -/
theorem read_eq (hmark : text.head? ≠ some '\ufeff') :
    read text = (lines (text.length + 1) text).bind fun (top, sections) =>
      ((contents top sections).map entriesToData).bind fun entries =>
        ofData? dialect (.record entries) := by
  have hread : Toml.read text = (lines (text.length + 1) text).bind fun (top, sections) =>
      (contents top sections).bind fun entries => some (.record (entriesToData entries)) := by
    unfold Toml.read
    split
    · exact absurd rfl hmark
    · rfl
  rw [read, hread]
  cases lines (text.length + 1) text with
  | none => rfl
  | some found =>
    dsimp only [Option.bind_eq_bind, Option.bind_some]
    cases contents found.1 found.2 <;> rfl

theorem head?_write (s : Settings) : (write s).head? = some '[' :=
  rfl

/-- **Valid settings are read from the document that is written for them.** -/
theorem read_write (h : s.Valid) : read (write s) = some s := by
  have hlines := lines_of_le h.lines_write (n := (write s).length + 1)
    (by have := length_write s; omega)
  rw [read_eq (by rw [head?_write]; decide), hlines]
  dsimp only [Option.bind_some]
  rw [contents_data]
  exact h.ofData?_data

/-! ## White space -/

/-- What is trimmed off a text is blank. -/
theorem exists_trim (text : List Char) : ∃ before behind,
    text = before ++ (Text.trim text ++ behind) ∧
      (∀ c ∈ before, Text.isBlank c = true) ∧ ∀ c ∈ behind, Text.isBlank c = true := by
  have hkind : ∀ cs : List Char, ∀ c ∈ cs.takeWhile Text.isBlank, Text.isBlank c = true :=
    fun cs c hc => Scanner.kind_of_mem_run (show c ∈ (Scanner.run Text.isBlank cs).1 from hc)
  refine ⟨text.takeWhile Text.isBlank,
    ((text.dropWhile Text.isBlank).reverse.takeWhile Text.isBlank).reverse, ?_, hkind _,
    fun c hc => hkind _ c (List.mem_reverse.mp hc)⟩
  rw [Text.trim, ← List.reverse_append, List.takeWhile_append_dropWhile, List.reverse_reverse,
    List.takeWhile_append_dropWhile]

/-- Nothing but the line break at its end is trimmed off a document. -/
theorem trim_write (s : Settings) : Text.trim (write s) = s.beginning ++ s.lastField := by
  have hdrop : (write s).dropWhile Text.isBlank = write s :=
    List.dropWhile_cons_of_neg (by decide)
  have hreverse : (write s).reverse = '\n' :: (s.beginning ++ s.lastField).reverse := by
    rw [write_eq, ← List.append_assoc, List.reverse_append]
    rfl
  have hlast : ∃ cs, (s.beginning ++ s.lastField).reverse = '"' :: cs := by
    rw [List.reverse_append, lastField, List.reverse_append]
    cases s.logMode <;> exact ⟨_, rfl⟩
  obtain ⟨cs, hcs⟩ := hlast
  rw [Text.trim, hdrop, hreverse, List.dropWhile_cons_of_pos (by decide), hcs,
    List.dropWhile_cons_of_neg (by decide), ← hcs, List.reverse_reverse]

/-- **White space around a document** does not make other sections of it. -/
theorem Valid.lines_eq (h : s.Valid) {before behind : List Char}
    (hbefore : ∀ c ∈ before, Text.isBlank c = true)
    (hbehind : ∀ c ∈ behind, Text.isBlank c = true) {n : Nat} {x : List Assignment × List Section}
    (hlines : lines n (before ++ (s.beginning ++ s.lastField ++ behind)) = some x) :
    x = ([], s.data.map sectionOf) := by
  have hquote : ∀ q, Text.isBlank q = false → behind.head? ≠ some q := by
    intro q hq hhead
    have hblank := hbehind q (List.mem_of_head? hhead)
    rw [hq] at hblank
    cases hblank
  obtain ⟨k, hlines⟩ := exists_lines_of_blank hbefore hlines
  have hlines := lines_of_le hlines (Nat.le_add_right k 20)
  rw [List.append_assoc, h.lines_beginning k] at hlines
  cases k with
  | zero => cases hlines
  | succ k =>
    rw [lines_lastField s k (hquote '"' rfl) (hquote '\'' rfl)] at hlines
    cases hend : lineEnd? behind with
    | none =>
      rw [hend] at hlines
      cases hlines
    | some rest =>
      cases hrest : lines k rest with
      | none =>
        rw [hend, Option.bind_some, hrest] at hlines
        cases hlines
      | some found =>
        obtain rfl := eq_of_lines_blank (isBlank_of_lineEnd? hbehind hend) hrest
        rw [hend, Option.bind_some, hrest] at hlines
        exact (Option.some.inj hlines).symm

/-- **White space around a document** does not make other settings of it, if it is read. -/
theorem eq_of_read_of_not_differ (h : s.Valid)
    (htext : SettingsStore.differ text (write s) = false) (hread : read text = some s') :
    s' = s := by
  have htrim : Text.trim text = s.beginning ++ s.lastField := by
    rw [SettingsStore.differ, bne_eq_false_iff_eq, trim_write] at htext
    exact htext
  obtain ⟨before, behind, htext, hbefore, hbehind⟩ := exists_trim text
  rw [htrim] at htext
  have hmark : text.head? ≠ some '\ufeff' := by
    intro hhead
    rw [htext] at hhead
    cases before with
    | nil => exact absurd (Option.some.inj hhead) (by decide)
    | cons c before =>
      obtain rfl : c = '\ufeff' := Option.some.inj hhead
      exact absurd (hbefore _ List.mem_cons_self) (by decide)
  rw [read_eq hmark] at hread
  cases hlines : lines (text.length + 1) text with
  | none =>
    rw [hlines] at hread
    cases hread
  | some found =>
    obtain rfl := h.lines_eq hbefore hbehind (htext ▸ hlines)
    rw [hlines] at hread
    dsimp only [Option.bind_some] at hread
    rw [contents_data, Option.bind_some, h.ofData?_data] at hread
    exact (Option.some.inj hread).symm

end Settings

end FormulaSynth
