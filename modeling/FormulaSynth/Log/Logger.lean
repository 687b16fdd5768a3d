import FormulaSynth.Log.Files
import FormulaSynth.Text.FilePath
/-!
# Loggers

A logger sends every message one way: to the terminal, to a host program that
shows messages itself, to the log files, or nowhere. The way can be changed while
the program runs.

The log files are opened when messages are first to go there, in the directory
that is the default unless the logger was made for another one. Once open they
stay so, and where they are can be asked for, wherever messages go by then.
-/

namespace FormulaSynth

/-- **The way messages go.** -/
inductive LogRoute where
  | standalone | embedded | file | silent
  deriving DecidableEq, Repr

/-- The name of a route. -/
def LogRoute.name : LogRoute → String
  | standalone => "standalone"
  | embedded => "embedded"
  | file => "file"
  | silent => "silent"

/-- **What becomes of a message.** -/
inductive Delivery where
  /-- It is shown on the terminal. -/
  | shown (text : String)
  /-- It is shown on the stream of the terminal that is for errors. -/
  | reported (text : String)
  /-- It is handed to the host. -/
  | handed (m : LogMessage)
  /-- It is in the log files. -/
  | written
  | dropped
  deriving DecidableEq, Repr

/-- Log files that are open, and where they are. -/
structure OpenLog where
  directory : String
  writer : LogWriter := {}

namespace OpenLog

/-- The path of the current file. -/
def path (log : OpenLog) : String :=
  FilePath.join log.directory LogFiles.currentName

end OpenLog

/-- **A logger.** -/
structure Logger where
  route : LogRoute := .standalone
  log : Option OpenLog := none
  /-- Whether there is a host that takes messages. -/
  hosted : Bool := false

namespace Logger

/-- The directory of the log below the directory for the data of all programs. -/
def defaultDirectory (dataDirectory : String) : String :=
  FilePath.join (FilePath.join dataDirectory "bytebeat") "logs"

/-- The path of the current log file, once there is one. -/
def path? (l : Logger) : Option String :=
  l.log.map OpenLog.path

/-- **The logger with messages going to the files from now on**: those that are open,
or those of a directory that are opened for it. -/
def toFile (l : Logger) (opened : OpenLog) : Logger :=
  { l with route := .file, log := some (l.log.getD opened) }

/-- What becomes of a message on the terminal. -/
def onTerminal (m : LogMessage) : Delivery :=
  if m.severity.isError then .reported m.line else .shown m.line

/-- What becomes of a message for the host. Without one it is shown as an error. -/
def toHost (l : Logger) (m : LogMessage) : Delivery :=
  if l.hosted then .handed m else .reported ("Logger channel error: " ++ m.line)

/-- **A message sent on its way**, and the logger afterwards. -/
def send (l : Logger) (m : LogMessage) : Delivery × Logger :=
  match l.route with
  | .standalone => (onTerminal m, l)
  | .embedded => (l.toHost m, l)
  | .file =>
    match l.log with
    | some log => (.written, { l with log := some { log with writer := log.writer.write m } })
    | none => (.dropped, l)
  | .silent => (.dropped, l)

end Logger

end FormulaSynth
