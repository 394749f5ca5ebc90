/-
A run of the program.

The program types a text into an empty document, truncates the log, and reports the
log before and after.  The settings are loaded first, and made if they are missing,
even when the text then cannot be read.  What was printed before an error stays
printed.
-/
import EditHistory.CommandLine.Options
import EditHistory.Settings.Location
import EditHistory.Settings.Store
import EditHistory.Typing

namespace EditHistory

namespace CommandLine

/-- A run that has ended. -/
structure Ended where
  exitCode : Nat
  /-- What was printed. -/
  output : String := ""
  /-- What was said of the error. -/
  complaint : String := ""
deriving DecidableEq, Repr

/-- Why a run that was properly asked for failed. -/
inductive RunError where
  | reading (path : String) (cause : ReadError)
  | editing (cause : Failure)
deriving Repr

namespace RunError

/-- The wordings of the error and of what caused it, outermost first. -/
def chain : RunError → List String
  | .reading path cause => ["reading " ++ path, cause.message]
  | .editing (.error cause) => cause.message :: cause.causes
  | .editing (.fault _) => ["fault"]

/-- The exit code; a fault has one of its own. -/
def exitCode : RunError → Nat
  | .editing (.fault _) => 101
  | _ => 1

/-- The wording of the causes, one a line, and numbered if there are several. -/
def causesText : List String → String
  | [] => ""
  | [cause] => "\nCaused by:\n    " ++ cause ++ "\n"
  | causes =>
    "\nCaused by:\n" ++
      String.join (causes.zipIdx.map fun (cause, n) => s!"    {n}: {cause}\n")

/-- The wording of the whole. -/
def complaint (e : RunError) : String :=
  match e.chain with
  | [] => ""
  | message :: causes => "Error: " ++ message ++ "\n" ++ causesText causes

end RunError

/-- A step of a run: it may fail, and what it printed stays. -/
abbrev RunM := EStateM RunError String

/-- Prints a line. -/
def printLine (line : String) : RunM Unit := modify (· ++ line ++ "\n")

/-- Goes on unless the history refused. -/
def require {α : Type} : Except HistoryError α → RunM α
  | .ok a => return a
  | .error e => throw (.editing (.error (.history e)))

/-- The hook that the options ask for. -/
def hook? (options : Options) : Option Hook :=
  if options.discardOversized then some Hook.discardOversized else none

/-- The log that is left when a text has been typed into an empty document. -/
def typedLog (options : Options) (settings : Settings) (text : Text) : RunM Log :=
  let recorder : Recorder := { Recorder.ofSettings settings with hook := hook? options }
  match Document.typeIn text options.chunk
      { recorder, markers := {}, doc := Document.ofText ⟨0⟩ [] } with
  | .ok _ s => return s.doc.log
  | .error e _ => throw (.editing e)

/-- Types a text and reports the log before and after truncation. -/
def report (options : Options) (settings : Settings) (text : Text) : RunM Unit := do
  let log ← typedLog options settings text
  let before ← require (Report.ofLog log options.units)
  printLine ("before: " ++ before.describe)
  let ended := truncateUnder (hook? options) settings 0 log
  let outcome ← require ended.result
  printLine ("truncate: " ++ outcome.describe)
  let after ← require (Report.ofLog ended.log options.units)
  printLine ("after: " ++ after.describe)

/-- Ends a run. -/
def finish (act : RunM Unit) : Ended :=
  match act "" with
  | .ok _ output => { exitCode := 0, output }
  | .error e output => { exitCode := e.exitCode, output, complaint := e.complaint }

/-- The end of a run that was not properly asked for. -/
def misused : Ended where
  exitCode := 2
  complaint := "Usage: undolog [OPTIONS] <FILE>\n"

variable {m : Type → Type} [Monad m]

/-- Runs the program. -/
def run (files : Files m) (env : Environment) (words : List String) : m Ended := do
  match Options.ofWords? words with
  | none => return misused
  | some options =>
    let settings ← Settings.load files (options.settingsFile.getD env.settingsFile)
    match ← files.readText options.file with
    | .error e => return finish (throw (.reading options.file e))
    | .ok text => return finish (report options settings text.toList)

end CommandLine

end EditHistory
