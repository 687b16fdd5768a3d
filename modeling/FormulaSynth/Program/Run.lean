import FormulaSynth.Disk
import FormulaSynth.Editor.Sound
import FormulaSynth.Expr.Text
import FormulaSynth.Log.Logger
import FormulaSynth.Program.Request
import FormulaSynth.Settings.Store
/-!
# Running the program

A run loads the settings, sends the log where they say, and carries out one
command. It changes a disk and writes to the two streams of a terminal, and ends
with a status. All of that is a function of what there was before, so the outer
layer only has to carry it over to the real disk and terminal.

Until the settings are loaded, messages go to the terminal. A rejected formula is
logged and printed: the log may go elsewhere, and the answer to the command must
not.
-/

namespace FormulaSynth

/-- How a run ends. -/
inductive ExitStatus where
  | success | failure | usage
  deriving DecidableEq, Repr

/-- The number of a status. -/
def ExitStatus.code : ExitStatus → Nat
  | success => 0
  | failure => 1
  | usage => 2

/-- **Where a program finds itself.** -/
structure Surroundings where
  /-- The directory that relative paths begin at. -/
  directory : String
  /-- The directory for the settings of all programs, if there is one. -/
  configDirectory : Option String
  /-- The directory for the data of all programs, if there is one. -/
  dataDirectory : Option String

namespace Surroundings

/-- The path of the settings file, if none is asked for. -/
def defaultConfig? (s : Surroundings) : Option String :=
  s.configDirectory.map fun directory =>
    FilePath.join (FilePath.join directory "bytebeat") "config.toml"

/-- The directory of the log. -/
def logDirectory (s : Surroundings) : String :=
  Logger.defaultDirectory (s.dataDirectory.getD s.directory)

/-- Where a path leads from here. -/
def locate (s : Surroundings) (path : String) : Location :=
  .ofPath s.directory path

end Surroundings

/-- **What a run changes.** -/
structure World where
  disk : Disk
  logger : Logger := {}
  /-- What has been printed. -/
  output : String := ""
  /-- What has been printed to the stream for errors. -/
  errors : String := ""

/-- A part of a run. -/
abbrev Run (α : Type) := StateT World (StateM Random) α

namespace Run

/-! ## Terminal and log -/

/-- Print a text. -/
def print (text : String) : Run Unit :=
  modify fun w => { w with output := w.output ++ text }

/-- Print a text on a line. -/
def printLine (text : String) : Run Unit :=
  print (text ++ "\n")

/-- Print a text on a line of the stream for errors. -/
def complain (text : String) : Run Unit :=
  modify fun w => { w with errors := w.errors ++ text ++ "\n" }

/-- What becomes of a message that has been sent on its way. -/
def deliver (w : World) : Delivery → World
  | .shown text => { w with output := w.output ++ text }
  | .reported text => { w with errors := w.errors ++ text }
  | .handed _ | .written | .dropped => w

/-- Log a message. -/
def log (m : LogMessage) : Run Unit :=
  modify fun w =>
    let (delivery, logger) := w.logger.send m
    deliver { w with logger := logger } delivery

/-- A part of a run that changes the disk, or fails to. -/
def onDisk (change : Disk → Except DiskError Disk) : Run (Except DiskError Unit) := do
  let w ← get
  match change w.disk with
  | .ok disk => set { w with disk := disk }; pure (.ok ())
  | .error e => pure (.error e)

/-- An evaluation within a run. -/
def evaluate {α : Type} (m : Evaluation α) : Run (Except EvalError α) :=
  StateT.lift m.run

/-! ## Settings -/

/-- Take a step of loading the settings file at a path, or say what could not be done. The
directory of the file is made if it is not there. -/
def takeStep (s : Surroundings) (path : String) : SettingsStore.Step → Run (Except String Unit)
  | .keep text => do
    let backup := s.locate (SettingsStore.backupPath path)
    if let .error e ← onDisk fun d => d.write backup (String.ofList text).toUTF8 then
      return .error s!"Failed to write backup: {e.message}"
    return .ok ()
  | .report m => do
    log m
    return .ok ()
  | .write document => do
    let file := s.locate path
    if let .error e ← onDisk fun d => d.makeDirectories file.parent then
      return .error s!"Failed to create config directory: {e.message}"
    if let .error e ← onDisk fun d => d.write file (String.ofList document).toUTF8 then
      return .error s!"Failed to write config file: {e.message}"
    return .ok ()

/-- Take steps of loading, up to the first that cannot be taken. -/
def takeSteps (s : Surroundings) (path : String) :
    List SettingsStore.Step → Run (Except String Unit)
  | [] => return .ok ()
  | step :: steps => do
    match ← takeStep s path step with
    | .error problem => return .error problem
    | .ok () => takeSteps s path steps

/-- Load the settings of the file at a path, or say what could not be done. -/
def loadFrom (s : Surroundings) (path : String) : Run (Except String Settings) := do
  let disk := (← get).disk
  let store : SettingsStore :=
    ⟨disk.state (s.locate path), disk.state (s.locate (SettingsStore.backupPath path))⟩
  let loaded := store.load path
  match loaded.result with
  | .error e => return .error s!"{LoadError.context path}: {e.reason}"
  | .ok settings =>
    match ← takeSteps s path loaded.steps with
    | .error problem => return .error problem
    | .ok () => return .ok settings

/-- **Load the settings**, or log why they cannot be. -/
def loadSettings (s : Surroundings) (config : Option String) : Run (Option Settings) := do
  match config <|> s.defaultConfig? with
  | none =>
    log ⟨.fatal, "Failed to determine config directory"⟩
    return none
  | some path =>
    match ← loadFrom s path with
    | .error e =>
      log ⟨.fatal, s!"Failed to load {path}: {e}"⟩
      return none
    | .ok settings => return some settings

/-- Send the log to its files. -/
def logToFile (s : Surroundings) : Run Unit := do
  let l := s.locate s.logDirectory
  match ← onDisk fun d => d.makeDirectories l with
  | .error e =>
    modify fun w => { w with logger := { w.logger with route := .file } }
    complain s!"Failed to create log file writer: {e.message}"
  | .ok () =>
    modify fun w =>
      let files := LogFiles.ofListing (w.disk.listing l)
      { w with logger := w.logger.toFile { directory := s.logDirectory, writer := { files } } }
  if let some path := (← get).logger.path? then
    complain s!"Logging to {path}"

/-- **Send the log where the settings say.** -/
def applyLogMode (s : Surroundings) (mode : LogMode) : Run Unit :=
  match mode with
  | .standalone => modify fun w => { w with logger := { w.logger with route := .standalone } }
  | .silent => modify fun w => { w with logger := { w.logger with route := .silent } }
  | .file => logToFile s

/-! ## Commands -/

/-- Parse the text of a session and log what there is to say. -/
def parse (e : Editor) : Run (Except Diagnostic Expr × Editor) := do
  let outcome ← StateT.lift e.parse
  outcome.log.forM log
  return (outcome.result, outcome.session)

/-- The report on a formula. -/
def report (formula : Except Diagnostic Expr) : Json :=
  match formula with
  | .ok tree =>
    .object [("ok", .bool true), ("formula", .string tree.display), ("tree", tree.toJson)]
  | .error d => .object [("ok", .bool false), ("error", d.toJson)]

/-- Check a formula. -/
def check (e : Editor) (json : Bool) : Run ExitStatus := do
  let (result, _) ← parse e
  if json then
    printLine (String.ofList ((report result).sorted.laidOut 0))
  else
    printLine (match result with
      | .ok tree => tree.display
      | .error d => d.display)
  return if result.isOk then .success else .failure

/-- Print the values of a formula. -/
def eval (e : Editor) (settings : Settings) (count : Nat) (first : UInt64) :
    Run ExitStatus := do
  match ← parse e with
  | (.error d, _) =>
    printLine d.display
    return .failure
  | (.ok tree, e) =>
    match ← evaluate (e.values settings tree first count) with
    | .error problem =>
      complain problem.message
      return .failure
    | .ok values =>
      values.forM fun value => printLine (toString value.toInt)
      return .success

/-- Write the sound of the tree in a channel to a file. -/
def renderTo (s : Surroundings) (e : Editor) (settings : Settings) (channel : Channel Expr)
    (out : String) (frames : Nat) : Run ExitStatus := do
  let l := s.locate out
  match ← onDisk fun d => d.write l ByteArray.empty with
  | .error reason =>
    complain s!"Error: Failed to create {out}\n\nCaused by:\n    {reason.message}"
    return .failure
  | .ok () =>
    log ⟨.debug, s!"Rendering {frames} frames in blocks of {settings.audio.blockSize}"⟩
    match ← evaluate (e.sound settings channel frames) with
    | .error problem =>
      complain problem.message
      return .failure
    | .ok wav =>
      modify fun w => { w with disk := w.disk.put l ⟨wav.encode.toArray⟩ }
      log ⟨.info, s!"Rendered {frames} frames to {out}"⟩
      return .success

/-- Render a formula. -/
def render (s : Surroundings) (e : Editor) (settings : Settings) (out : String)
    (seconds : Float) : Run ExitStatus := do
  match ← parse { e with channel := some (Channel.new 1) } with
  | (.error d, _) =>
    printLine d.display
    return .failure
  | (.ok _, e) =>
    renderTo s e settings (e.channel.getD (Channel.new 1)) out (settings.frames seconds)

/-- Carry out a command. -/
def command (s : Surroundings) (settings : Settings) : Command → Run ExitStatus
  | .check formula json => check { formula } json
  | .eval formula count first =>
    eval { formula := formula.getD settings.formula } settings count first
  | .render formula out seconds =>
    render s { formula := formula.getD settings.formula } settings out seconds

/-- The disk with one of the log files as it is now, if it has changed. -/
def storeLogFile (before now : List (String × String)) (directory : Location) (d : Disk)
    (name : String) : Disk :=
  let l := directory.child name
  match LogFiles.textOf before name, LogFiles.textOf now name with
  | old, some text => if old = some text then d else d.put l text.toUTF8
  | some _, none => d.remove l
  | none, none => d

/-- The disk with the log files as they are now. -/
def storeLog (s : Surroundings) (w : World) : Disk :=
  match w.logger.log with
  | none => w.disk
  | some log =>
    let directory := s.locate log.directory
    LogFiles.names.foldl
      (storeLogFile (w.disk.listing directory) log.writer.files.listing directory) w.disk

/-- **Carry out a request.** -/
def request (s : Surroundings) (r : Request) : Run ExitStatus := do
  match ← loadSettings s r.config with
  | none => return .failure
  | some settings =>
    applyLogMode s settings.logMode
    let status ← command s settings r.command
    modify fun w => { w with disk := storeLog s w }
    return status

/-! ## The program -/

/-- What the program says of itself. -/
def version : String := "bytebeat 0.1.0"

/-- How the program is used. -/
def usage : String :=
  "Usage: bytebeat [-c|--config PATH] COMMAND\n\n" ++
  "Commands:\n" ++
  "  check FORMULA [--json]\n" ++
  "  eval [FORMULA] [-n|--len N] [--start N]\n" ++
  "  render [FORMULA] -o|--out FILE [-s|--seconds S]"

/-- **Run the program** with the arguments of its command line. -/
def program (s : Surroundings) (arguments : List String) : Run ExitStatus := do
  match Request.ofArguments arguments with
  | .ok r => request s r
  | .error .help =>
    printLine usage
    return .success
  | .error .version =>
    printLine version
    return .success
  | .error (.usage e) =>
    complain s!"error: {e.message}\n\n{usage}"
    return .usage

end Run

end FormulaSynth
