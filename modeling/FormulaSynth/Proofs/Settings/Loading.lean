import FormulaSynth.Proofs.Settings.Document
import FormulaSynth.Settings.Store
/-!
# Loading settings

What loading makes of the settings file is told apart by what it finds: nothing, a directory,
bytes that are no text, a text that is no settings document, and a document. One lemma for each
says what comes of it, and the rest is drawn from these.

Whenever settings are loaded the store is left *at rest*: its file is a document of just these
settings, they are valid, and there is nothing in the file that writing them would change but
white space at its ends. Loading a store at rest does nothing
(`SettingsStore.AtRest.load_eq`), so the first load is the only one that counts,
`SettingsStore.load_settles`. For this a document that is written has to be read as the settings
it was written for, and white space at its ends must not make other settings of it. No more is
asked of a format (`SettingsFormat.Lawful`), and the one that settings are kept in is like that
(`SettingsFormat.lawful_toml`).

Nothing is lost on the way, `SettingsStore.load_preserves`. What cannot be read stays where it
is or is put aside as it was, and after however many steps the loading ends, one of the two is
the case.
-/

namespace FormulaSynth

-- settings are compared field by field, so what comes of loading them can be evaluated
deriving instance DecidableEq for ClockSettings, Settings

namespace PathState

/-- A file with a text is read as the text. -/
theorem text?_ofText (text : List Char) : (ofText text).text? = some (String.ofList text) := by
  rw [ofText, text?, String.fromUTF8?]
  exact dif_pos (String.ofList text).isValidUTF8

/-- A file that is read as a text is the file with that text. -/
theorem ofText_toList_of_text?_eq_some {p : PathState} {text : String} (h : p.text? = some text) :
    ofText text.toList = p := by
  cases p with
  | missing => cases h
  | directory => cases h
  | file content =>
    rw [text?, String.fromUTF8?] at h
    obtain ⟨hvalid, htext⟩ := Option.dite_none_right_eq_some.mp h
    obtain rfl := Option.some.inj htext
    rw [ofText, String.ofList_toList]
    rfl

/-- What can be found where a text is looked for. -/
theorem found_cases (p : PathState) : p = .missing ∨ p = .directory ∨
    (∃ content, p = .file content ∧ String.fromUTF8? content = none) ∨
    ∃ text, p.text? = some text := by
  cases p with
  | missing => exact .inl rfl
  | directory => exact .inr (.inl rfl)
  | file content =>
    cases htext : String.fromUTF8? content with
    | none => exact .inr (.inr (.inl ⟨content, rfl, htext⟩))
    | some text => exact .inr (.inr (.inr ⟨text, htext⟩))

end PathState

namespace SettingsFormat

/-- **A lawful format**: valid settings are read from the document that is written for them, and
a text that has other white space at its ends, if it is read at all, is read as these. -/
structure Lawful (format : SettingsFormat) : Prop where
  read_write : ∀ {s : Settings}, s.Valid → format.read (format.write s) = .ok s
  eq_of_read : ∀ {s s' : Settings} {text : List Char}, s.Valid →
    SettingsStore.differ text (format.write s) = false → format.read text = .ok s' → s' = s

theorem read_toml_eq_ok_iff {text : List Char} {s : Settings} :
    toml.read text = .ok s ↔ Settings.read text = some s := by
  unfold toml
  dsimp only
  cases Settings.read text <;> simp

/-- **Settings are kept in a lawful format.** -/
theorem lawful_toml : toml.Lawful where
  read_write h := read_toml_eq_ok_iff.mpr (Settings.read_write h)
  eq_of_read h hsame hread :=
    Settings.eq_of_read_of_not_differ h hsame (read_toml_eq_ok_iff.mp hread)

end SettingsFormat

namespace SettingsStore

variable {store : SettingsStore} {path text : String} {format : SettingsFormat} {s : Settings}

/-! ## Steps -/

/-- Messages change nothing in the store. -/
@[simp] theorem foldl_after_report (store : SettingsStore) (log : List LogMessage) :
    (log.map Step.report).foldl after store = store := by
  induction log with
  | nil => rfl
  | cons m log ih => exact ih

/-- Steps that keep no text leave the backup as it is. -/
theorem backup_foldl_after {steps : List Step} (h : ∀ text, .keep text ∉ steps) :
    (steps.foldl after store).backup = store.backup := by
  induction steps generalizing store with
  | nil => rfl
  | cons step steps ih =>
    rw [List.foldl_cons, ih fun text hmem => h text (List.mem_cons_of_mem _ hmem)]
    cases step with
    | keep text => exact absurd List.mem_cons_self (h text)
    | report | write => rfl

/-! ## The ways of loading -/

/-- A file that is missing is written with the defaults. -/
theorem load_of_missing (h : store.file = .missing) : store.load path format =
    { result := .ok {}, before := store, steps := [.write (format.write {})] } := by
  rw [load, h]

/-- A directory is left alone. -/
theorem load_of_directory (h : store.file = .directory) :
    store.load path format = { result := .error .isDirectory, before := store } := by
  rw [load, h]

/-- Bytes that are no text are left alone. -/
theorem load_of_not_text {content : ByteArray} (h : store.file = .file content)
    (htext : String.fromUTF8? content = none) :
    store.load path format = { result := .error .notText, before := store } := by
  simp only [load, h, htext]

theorem load_of_text (h : store.file.text? = some text) :
    store.load path format = store.loadText path format text.toList := by
  cases hfile : store.file with
  | missing => rw [hfile] at h; cases h
  | directory => rw [hfile] at h; cases h
  | file content =>
    have htext : String.fromUTF8? content = some text := by rwa [hfile] at h
    simp only [load, hfile, htext]

/-- **A text that is no settings document** is put aside as it is and replaced by the
defaults. -/
theorem load_of_corrupt {reason : String} (h : store.file.text? = some text)
    (hread : format.read text.toList = .error reason) : store.load path format =
      { result := .ok {}, before := store,
        steps := [.keep text.toList, .report (corruptMessage path reason),
          .write (format.write {})] } := by
  rw [load_of_text h, loadText, hread]

/-- **A settings document** is mended, and written again if that is of use. -/
theorem load_of_settings (h : store.file.text? = some text)
    (hread : format.read text.toList = .ok s) : store.load path format =
      { result := .ok s.validate.value
        before := store
        steps := s.validate.warnings.map .report ++
          if differ text.toList (format.write s.validate.value) then
            [.write (format.write s.validate.value)]
          else [] } := by
  rw [load_of_text h, loadText, hread]

/-- The store after a document has been loaded. -/
theorem store_load_of_settings (h : store.file.text? = some text)
    (hread : format.read text.toList = .ok s) : (store.load path format).store =
      if differ text.toList (format.write s.validate.value) then
        { store with file := .ofText (format.write s.validate.value) }
      else store := by
  rw [load_of_settings h hread, Loaded.store, List.foldl_append, foldl_after_report]
  split <;> rfl

/-! ## Stores at rest -/

/-- **A store at rest**: its file is a document of valid settings, and but for white space at its
ends it is the document that is written for them. -/
structure AtRest (format : SettingsFormat) (store : SettingsStore) (s : Settings) : Prop where
  valid : s.Valid
  exists_text : ∃ text, store.file.text? = some text ∧ format.read text.toList = .ok s ∧
    differ text.toList (format.write s) = false

/-- A store with the document of valid settings is at rest. -/
theorem atRest_write (hformat : format.Lawful) (h : s.Valid) (backup : PathState) :
    AtRest format ⟨.ofText (format.write s), backup⟩ s := by
  refine ⟨h, _, PathState.text?_ofText _, ?_⟩
  rw [String.toList_ofList]
  exact ⟨hformat.read_write h, bne_self_eq_false _⟩

/-- **Loading a store at rest takes no step.** -/
theorem AtRest.load_eq (h : AtRest format store s) (path : String) :
    store.load path format = { result := .ok s, before := store } := by
  obtain ⟨text, htext, hread, hsame⟩ := h.exists_text
  rw [load_of_settings htext hread, h.valid.validate_eq, hsame]
  rfl

/-- **Loading settings leaves the store at rest.** -/
theorem atRest_load (hformat : format.Lawful) (h : (store.load path format).result = .ok s) :
    AtRest format (store.load path format).store s := by
  obtain hfile | hfile | ⟨content, hfile, htext⟩ | ⟨text, htext⟩ := store.file.found_cases
  · rw [load_of_missing hfile] at h ⊢
    cases h
    exact atRest_write hformat Settings.valid_default _
  · rw [load_of_directory hfile] at h
    cases h
  · rw [load_of_not_text hfile htext] at h
    cases h
  cases hread : format.read text.toList with
  | error reason =>
    rw [load_of_corrupt htext hread] at h ⊢
    cases h
    exact atRest_write hformat Settings.valid_default _
  | ok s₀ =>
    rw [store_load_of_settings htext hread]
    rw [load_of_settings htext hread] at h
    cases h
    have hvalid : s₀.validate.value.Valid := s₀.valid_validate
    cases hdiffer : differ text.toList (format.write s₀.validate.value) with
    | true => exact atRest_write hformat hvalid _
    | false =>
      -- the document is kept, so it has been that of valid settings all along
      have hsame : s₀ = s₀.validate.value :=
        hformat.eq_of_read hvalid hdiffer hread
      exact ⟨hvalid, text, htext, hsame ▸ hread, hdiffer⟩

/-- **Where loading fails, no step is taken.** -/
theorem steps_load_of_error {e : LoadError} (h : (store.load path format).result = .error e) :
    store.load path format = { result := .error e, before := store } := by
  obtain hfile | hfile | ⟨content, hfile, htext⟩ | ⟨text, htext⟩ := store.file.found_cases
  · rw [load_of_missing hfile] at h
    cases h
  · rw [load_of_directory hfile] at h ⊢
    cases h
    rfl
  · rw [load_of_not_text hfile htext] at h ⊢
    cases h
    rfl
  cases hread : format.read text.toList with
  | error reason =>
    rw [load_of_corrupt htext hread] at h
    cases h
  | ok s₀ =>
    rw [load_of_settings htext hread] at h
    cases h

/-- The store after it has been loaded a number of times. -/
def reloaded (store : SettingsStore) (path : String) (format : SettingsFormat) :
    Nat → SettingsStore
  | 0 => store
  | n + 1 => ((store.reloaded path format n).load path format).store

/-- **Loading settings is done with after the first time.** Whatever was there before, and in
whatever lawful format settings are kept, if they can be loaded they are valid, so that
validating them changes nothing and warns of nothing. And every further load gives the same
settings and takes no step: it leaves the file and its backup as the first one did, byte for
byte, and logs nothing. -/
theorem load_settles (hformat : format.Lawful) (store : SettingsStore) (path : String)
    (s : Settings) (h : (store.load path format).result = .ok s) :
    s.validate = ⟨s, []⟩ ∧ ∀ n,
      let again := (store.reloaded path format (n + 1)).load path format
      again.result = .ok s ∧ again.steps = [] ∧
        again.store = (store.load path format).store ∧ again.log = [] := by
  have hrest : AtRest format (store.load path format).store s := atRest_load hformat h
  have hstays : ∀ n, store.reloaded path format (n + 1) = (store.load path format).store := by
    intro n
    induction n with
    | zero => rfl
    | succ n ih =>
      rw [reloaded, ih, hrest.load_eq]
      rfl
  refine ⟨hrest.valid.validate_eq, fun n => ?_⟩
  dsimp only
  rw [hstays, hrest.load_eq]
  exact ⟨rfl, rfl, rfl, rfl⟩

/-- A document with a number of channels that cannot be played on is mended once. -/
theorem load_settles_mended :
    let store : SettingsStore :=
      { file := .ofText "[audio]\nblock_size = 64\nchannels = 0\n[clock]\ntempo = 90.5".toList }
    let s : Settings := { audio := { blockSize := 64 }, clock := { tempo := 90.5 } }
    let path := "config.toml"
    let format := SettingsFormat.toml
    (store.load path format).result = .ok s ∧ s.validate = ⟨s, []⟩ ∧ ∀ n,
      let again := (store.reloaded path format (n + 1)).load path format
      again.result = .ok s ∧ again.steps = [] ∧
        again.store = (store.load path format).store ∧ again.log = [] := by
  intro store s path format
  have h : (store.load path format).result = .ok s := by decide +kernel +zetaReduce
  exact ⟨h, load_settles SettingsFormat.lawful_toml store path s h⟩

/-! ## What is kept -/

/-- **Loading destroys nothing that it could not read**, in whatever lawful format settings are
kept. Where it fails, the file and the backup stay as they were, and nothing is logged; so it is
with a directory and with bytes that are no text. A text that is no settings document becomes the
backup, byte for byte, then that is logged, and then the defaults take its place; wherever this
breaks off, the text is still in the file or in the backup. Otherwise the backup is not touched: a
document gives its settings, mended, and so does the file from then on, and a missing file is
written with the defaults. -/
theorem load_preserves (hformat : format.Lawful) (store : SettingsStore) (path : String) :
    let loaded := store.load path format
    (∀ e, loaded.result = .error e → loaded.store = store ∧ loaded.steps = []) ∧
    (store.file = .directory → loaded.result = .error .isDirectory) ∧
    (∀ content, store.file = .file content → String.fromUTF8? content = none →
      loaded.result = .error .notText) ∧
    (∀ text reason, store.file.text? = some text → format.read text.toList = .error reason →
      loaded.result = .ok {} ∧ loaded.store.backup = store.file ∧
        loaded.store.file = .ofText (format.write {}) ∧
        loaded.steps = [.keep text.toList, .report (corruptMessage path reason),
          .write (format.write {})] ∧
        ∀ n, ((loaded.steps.take n).foldl after store).file = store.file ∨
          ((loaded.steps.take n).foldl after store).backup = store.file) ∧
    (∀ text s, store.file.text? = some text → format.read text.toList = .ok s →
      loaded.result = .ok s.validate.value ∧ loaded.store.backup = store.backup ∧
        ∃ text', loaded.store.file.text? = some text' ∧
          format.read text'.toList = .ok s.validate.value) ∧
    (store.file = .missing → loaded.result = .ok {} ∧ loaded.store.backup = store.backup ∧
      loaded.store.file = .ofText (format.write {})) := by
  intro loaded
  refine ⟨fun e h => ?error, fun h => ?directory, fun content h htext => ?bytes,
    fun text reason h hread => ?corrupt, fun text s h hread => ?document, fun h => ?missing⟩
  case error =>
    rw [show loaded = _ from steps_load_of_error h]
    exact ⟨rfl, rfl⟩
  case directory => rw [show loaded = _ from load_of_directory h]
  case bytes => rw [show loaded = _ from load_of_not_text h htext]
  case corrupt =>
    have hkept : PathState.ofText text.toList = store.file :=
      PathState.ofText_toList_of_text?_eq_some h
    rw [show loaded = _ from load_of_corrupt h hread]
    refine ⟨rfl, hkept, rfl, rfl, fun n => ?_⟩
    cases n with
    | zero => exact .inl rfl
    -- the backup is there from the first step on
    | succ n =>
      dsimp only
      rw [List.take_succ_cons, List.foldl_cons, backup_foldl_after fun text hmem => by
        simpa using List.mem_of_mem_take hmem]
      exact .inr hkept
  case document =>
    have hresult : loaded.result = .ok s.validate.value := by
      rw [show loaded = _ from load_of_settings h hread]
    have hbackup : loaded.store.backup = store.backup := by
      rw [show loaded.store = _ from store_load_of_settings h hread]
      split <;> rfl
    obtain ⟨text', htext', hread', -⟩ := (atRest_load hformat hresult).exists_text
    exact ⟨hresult, hbackup, text', htext', hread'⟩
  case missing =>
    rw [show loaded = _ from load_of_missing h]
    exact ⟨rfl, rfl, rfl⟩

/-- What becomes of a directory, of a byte that is no text, of a text that is no document and of a
document, where there is a backup already. -/
theorem load_preserves_backup :
    let backup : PathState := .ofText "from before".toList
    let document := "[clock]\ntempo = 90.5".toList
    let path := "config.toml"
    let format := SettingsFormat.toml
    (load ⟨.directory, backup⟩ path format).result = .error .isDirectory ∧
    (load ⟨.directory, backup⟩ path format).store = ⟨.directory, backup⟩ ∧
    (load ⟨.file ⟨#[0xFF]⟩, backup⟩ path format).result = .error .notText ∧
    (load ⟨.file ⟨#[0xFF]⟩, backup⟩ path format).store = ⟨.file ⟨#[0xFF]⟩, backup⟩ ∧
    (load ⟨.ofText "# \x7f".toList, backup⟩ path format).store.backup =
      .ofText "# \x7f".toList ∧
    (load ⟨.ofText "# \x7f".toList, backup⟩ path format).store.file =
      .ofText (format.write {}) ∧
    (load ⟨.ofText document, backup⟩ path format).result = .ok { clock := { tempo := 90.5 } } ∧
    (load ⟨.ofText document, backup⟩ path format).store.backup = backup ∧
    (load ⟨.missing, backup⟩ path format).store.backup = backup := by
  intro backup document path format
  have hformat := SettingsFormat.lawful_toml
  obtain ⟨hkept₁, hdirectory, -⟩ := load_preserves hformat ⟨.directory, backup⟩ path
  obtain ⟨hkept₂, -, hbytes, -⟩ := load_preserves hformat ⟨.file ⟨#[0xFF]⟩, backup⟩ path
  obtain ⟨-, -, -, hcorrupt, -⟩ := load_preserves hformat ⟨.ofText "# \x7f".toList, backup⟩ path
  obtain ⟨-, -, -, -, hdocument, -⟩ := load_preserves hformat ⟨.ofText document, backup⟩ path
  obtain ⟨-, -, -, -, -, hmissing⟩ := load_preserves hformat ⟨.missing, backup⟩ path
  have hbytes := hbytes _ rfl (by decide +kernel)
  obtain ⟨-, hbackup, hfile, -⟩ :=
    hcorrupt _ corruption (PathState.text?_ofText _)
      (by rw [String.toList_ofList]; decide +kernel)
  obtain ⟨hresult, hkept, -⟩ :=
    hdocument _ { clock := { tempo := 90.5 } } (PathState.text?_ofText _)
      (by
        rw [String.toList_ofList, SettingsFormat.read_toml_eq_ok_iff]
        decide +kernel +zetaReduce)
  have hvalid : ({ clock := { tempo := 90.5 } } : Settings).validate.value =
      { clock := { tempo := 90.5 } } := by decide +kernel
  refine ⟨hdirectory rfl, (hkept₁ _ (hdirectory rfl)).1, hbytes, (hkept₂ _ hbytes).1, hbackup,
    hfile, ?_, hkept, (hmissing rfl).2.1⟩
  rw [hresult, hvalid]

end SettingsStore

end FormulaSynth
