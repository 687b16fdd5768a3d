import FormulaSynth.Program.Run
/-!
# The command line program

The outer layer: it looks up the paths that a run can touch, carries the run out
on what it has found, and takes what has changed back to the disk and the
terminal.
-/

namespace FormulaSynth.CommandLine

/-- The path of names from the root. -/
def pathOf (names : List String) : String :=
  "/" ++ "/".intercalate names

/-- What is at a path whose parent is a directory. -/
def look (names : List String) : IO PathState := do
  try
    return .file (← IO.FS.readBinFile (pathOf names))
  catch
    | .noFileOrDirectory .. => return .missing
    | _ => return .directory

/-- The disk with what is found on the way to a location. -/
def explore (d : Disk) (l : Location) : IO Disk := do
  let mut d := d
  for n in List.range l.names.length do
    let here := l.names.take (n + 1)
    if d.find here == .missing then
      match ← look here with
      | .missing => return d
      | .directory => d := { d with directories := here :: d.directories }
      | .file content => return d.put ⟨here, false⟩ content
  return d

/-- The locations that a request can touch. -/
def touched (s : Surroundings) (r : Request) : List Location :=
  let config := (r.config <|> s.defaultConfig?).toList
  let settings := config ++ config.map SettingsStore.backupPath
  let out := match r.command with
    | .render _ path _ => [path]
    | _ => []
  (settings ++ out).map s.locate ++ LogFiles.names.map fun name =>
    (s.locate s.logDirectory).child name

/-- The disk as far as a command line can touch it. -/
def diskFor (s : Surroundings) (arguments : List String) : IO Disk :=
  match Request.ofArguments arguments with
  | .ok r => (touched s r).foldlM explore {}
  | .error _ => pure {}

/-- Take what has changed back to the disk. -/
def carryOver (before after : Disk) : IO Unit := do
  for names in after.directories do
    unless before.directories.contains names do
      IO.FS.createDirAll (pathOf names)
  for (names, content) in after.files do
    unless before.find names == .file content do
      IO.FS.writeBinFile (pathOf names) content
  for (names, _) in before.files do
    if after.find names == .missing then
      IO.FS.removeFile (pathOf names)

/-- The directories of the user. -/
def surroundings : IO Surroundings := do
  let home ← IO.getEnv "HOME"
  let directory (name fallback : String) : IO (Option String) := do
    match ← IO.getEnv name with
    | some path => if path.startsWith "/" then return some path
    | none => pure ()
    return home.map (FilePath.join · fallback)
  return {
    directory := toString (← IO.currentDir)
    configDirectory := ← directory "XDG_CONFIG_HOME" ".config"
    dataDirectory := ← directory "XDG_DATA_HOME" ".local/share" }

/-- A random source that differs from run to run. -/
def entropy : IO Random := do
  let bytes ← IO.getRandomBytes 8
  return Random.ofSeed (UInt64.ofNat (bytes.foldl (fun n b => 256 * n + b.toNat) 0))

/-- **Run the program** and give the number of its status. -/
def run (arguments : List String) : IO UInt32 := do
  let s ← surroundings
  let disk ← diskFor s arguments
  let ((status, w), _) := ((Run.program s arguments).run { disk }).run (← entropy)
  carryOver disk w.disk
  IO.print w.output
  IO.eprint w.errors
  return UInt32.ofNat status.code

end FormulaSynth.CommandLine

/-- The program. -/
def main (arguments : List String) : IO UInt32 :=
  FormulaSynth.CommandLine.run arguments
