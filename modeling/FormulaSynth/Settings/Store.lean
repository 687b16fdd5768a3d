import FormulaSynth.Disk
import FormulaSynth.Settings.Document
import FormulaSynth.Settings.Validation
import FormulaSynth.Text.FilePath
/-!
# The settings file

Settings live in a file that the program keeps in order. Loading it never leaves
the user without settings, except where there is something in its place that
cannot be read as text: a missing file is written with the defaults, a file with
values that make no sense is mended, and a file that is no settings document at
all is put aside as a backup and replaced by the defaults. A file is written
again only if more than white space at its ends would change.

Loading is told as the steps that are taken, one after the other. Any of them may
be the last, as a write may fail, so their order is what decides whether a text
survives: it is kept as the backup before anything takes its place.
-/

namespace FormulaSynth

/-- **The settings file and its backup.** -/
structure SettingsStore where
  file : PathState
  backup : PathState := .missing

/-- Why settings cannot be loaded. -/
inductive LoadError where
  | isDirectory
  | notText
  deriving DecidableEq, Repr

/-- The reason behind a load error. -/
def LoadError.reason : LoadError → String
  | isDirectory => DiskError.isDirectory.message
  | notText => "stream did not contain valid UTF-8"

/-- What could not be done, for a file at a path. -/
def LoadError.context (path : String) : String :=
  s!"Failed to read config file {path}"

namespace SettingsStore

/-- Where the backup of a file at a path is kept. -/
def backupPath (path : String) : String :=
  FilePath.withExtension path "toml.backup"

/-- **A step of loading settings.** -/
inductive Step where
  /-- The text of the file is kept as its backup. -/
  | keep (text : List Char)
  /-- A message is logged. -/
  | report (m : LogMessage)
  /-- A document is written to the file. -/
  | write (document : List Char)

/-- The store after a step. -/
def after (store : SettingsStore) : Step → SettingsStore
  | .keep text => { store with backup := .ofText text }
  | .report _ => store
  | .write document => { store with file := .ofText document }

/-- **What loading settings comes to**: the settings, and the steps to take in the store that
there is. -/
structure Loaded where
  result : Except LoadError Settings
  before : SettingsStore
  steps : List Step := []

/-- The store after all steps. -/
def Loaded.store (loaded : Loaded) : SettingsStore :=
  loaded.steps.foldl after loaded.before

/-- The messages of all steps. -/
def Loaded.log (loaded : Loaded) : List LogMessage :=
  loaded.steps.filterMap fun
    | .report m => some m
    | _ => none

/-- What is wrong with a text that is no document, said in general. -/
def corruption : String := "not a settings document"

/-- What is logged of a text that is put aside. The reason is the format's. -/
def corruptMessage (path reason : String) : LogMessage :=
  ⟨.error, s!"Config file corrupted: {reason}. Backup saved to {backupPath path}. " ++
    "Using defaults."⟩

/-- Whether two texts differ in more than the white space at their ends. -/
def differ (text other : List Char) : Bool :=
  Text.trim text != Text.trim other

end SettingsStore

/-- **A format of settings documents**: how settings are written, and what is read from a text,
which are settings or else the reason why there are none. -/
structure SettingsFormat where
  write : Settings → List Char
  read : List Char → Except String Settings

/-- **The format that settings are kept in.** Of a text that is no document it says no more than
that. -/
def SettingsFormat.toml : SettingsFormat where
  write := Settings.write
  read text :=
    match Settings.read text with
    | some settings => .ok settings
    | none => .error SettingsStore.corruption

namespace SettingsStore

/-- **The settings of a file with a text**, and the steps of loading them. -/
def loadText (store : SettingsStore) (path : String) (format : SettingsFormat)
    (text : List Char) : Loaded :=
  match format.read text with
  | .error reason =>
    { result := .ok {}
      before := store
      steps := [.keep text, .report (corruptMessage path reason), .write (format.write {})] }
  | .ok settings =>
    let mended := settings.validate
    let document := format.write mended.value
    { result := .ok mended.value
      before := store
      steps := mended.warnings.map .report ++
        if differ text document then [.write document] else [] }

/-- **The settings of the store**, whose file is at a path, and the steps of loading them. -/
def load (store : SettingsStore) (path : String) (format : SettingsFormat := .toml) : Loaded :=
  match store.file with
  | .missing => { result := .ok {}, before := store, steps := [.write (format.write {})] }
  | .directory => { result := .error .isDirectory, before := store }
  | .file content =>
    match String.fromUTF8? content with
    | none => { result := .error .notText, before := store }
    | some text => store.loadText path format text.toList

end SettingsStore

end FormulaSynth
