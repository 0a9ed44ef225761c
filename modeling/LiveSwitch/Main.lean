import LiveSwitch.CommandLine.Run

/-!
# The command line program

Reads the files that the arguments name, carries out the command and prints what it says.
-/

namespace LiveSwitch.CommandLine

/-- What is found under a path of the file system. -/
def readPath (path : String) : IO FileContent := do
  match ← (IO.FS.Handle.mk path .read).toBaseIO with
  | .error (.noFileOrDirectory ..) => return .missing
  | .error _ => return .blocked
  | .ok file =>
    match ← file.readBinToEnd.toBaseIO with
    | .ok content => return .bytes content
    | .error _ => return .unreadable

/-- Carries out an invocation on the file system and gives the exit code. -/
def Invocation.perform (i : Invocation) : IO Nat := do
  let contents ← i.files.mapM fun path => return (path, ← readPath path)
  let report := i.run fun path => (contents.lookup path).getD .missing
  IO.print report.output
  match report.dump? with
  | none => return report.exit
  | some (path, text) =>
    try
      IO.FS.writeFile path text
      return report.exit
    catch _ => return failureExit

end LiveSwitch.CommandLine

open LiveSwitch.CommandLine in
/-- The command line program. -/
def main (args : List String) : IO UInt32 := do
  match Invocation.ofArguments? args with
  | some i => return (← i.perform).toUInt32
  | none => return usageExit.toUInt32
