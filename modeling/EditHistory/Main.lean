/-
The program on a machine: its files, its environment, its output.
-/
import EditHistory.CommandLine.Run

namespace EditHistory

namespace Machine

/-- What the system answered. -/
def readErrorOf : IO.Error → ReadError
  | .alreadyExists _ code reason | .invalidArgument _ code reason
  | .permissionDenied _ code reason | .resourceExhausted _ code reason
  | .inappropriateType _ code reason | .noSuchThing _ code reason
  | .noFileOrDirectory _ code reason | .interrupted _ code reason
  | .otherError code reason | .resourceBusy code reason | .resourceVanished code reason
  | .unsupportedOperation code reason | .hardwareFault code reason
  | .unsatisfiedConstraints code reason | .illegalOperation code reason
  | .protocolError code reason | .timeExpired code reason =>
    .system reason code.toNat
  | .unexpectedEof => .system "unexpected end of file" 0
  | .userError reason => .system reason 0

/-- Whether an action succeeds. -/
def succeeds (act : IO Unit) : IO Bool := do
  try
    act
    return true
  catch _ => return false

/-- The files of the machine. -/
def files : Files IO where
  present path := do
    if path.isEmpty then return false else ((← IO.currentDir) / path).pathExists
  isDirectory path := do
    if path.isEmpty then return false else ((← IO.currentDir) / path).isDir
  makeDirectory path := succeeds (IO.FS.createDir path)
  read path := do
    try
      return .ok (← (← IO.FS.Handle.mk path .read).readBinToEnd)
    catch e => return .error (readErrorOf e)
  write path bytes := succeeds (IO.FS.writeBinFile path bytes)

/-- What the environment of the machine says about places. -/
def environment : IO Environment := do
  return {
    settingsPath := ← IO.getEnv "UNDOLOG_CONFIG"
    configHome := ← IO.getEnv "XDG_CONFIG_HOME"
    home := ← IO.getEnv "HOME" }

end Machine

end EditHistory

/-- Runs the program on the files of the machine. -/
def main (words : List String) : IO UInt32 := do
  let ended ← EditHistory.CommandLine.run EditHistory.Machine.files
    (← EditHistory.Machine.environment) words
  IO.print ended.output
  IO.eprint ended.complaint
  return .ofNat ended.exitCode
