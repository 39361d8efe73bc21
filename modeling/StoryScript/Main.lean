import Std.Time.DateTime.Timestamp
import StoryScript.CommandLine
import StoryScript.Export.Clock
/-!
# The program

Runs a command line on the files of the machine.
-/

namespace StoryScript.CommandLine

open Files (Disk Failure)

/-- What an error of the machine means for a file. Its number can come with either sign. -/
def failureOf : IO.Error → Failure
  | .noFileOrDirectory .. => .notFound
  | .inappropriateType _ code details =>
    if code = 20 ∨ 0 - code = 20 then .notADirectory
    else if code = 21 ∨ 0 - code = 21 then .isADirectory
    else .other details
  | error => .other (toString error)

/-- The files of the machine. -/
def machine : Disk IO where
  read path := do
    try return .ok (← IO.FS.readBinFile path)
    catch error => return .error (failureOf error)
  write path content := do
    try
      IO.FS.writeBinFile path content
      return .ok ()
    catch error => return .error (failureOf error)

/-- Run a command line on the machine, and answer with the code to exit with. -/
def runOnMachine (args : List String) : IO UInt32 := do
  let seconds := (← Std.Time.Timestamp.now).toSecondsSinceUnixEpoch.val.toNat
  let outcome ← run machine (Export.timestamp seconds) args
  (← IO.getStdout).putStr outcome.stdout
  (← IO.getStderr).putStr outcome.stderr
  return outcome.exitCode.toUInt32

end StoryScript.CommandLine

/-- The program. -/
def main (args : List String) : IO UInt32 := StoryScript.CommandLine.runOnMachine args
