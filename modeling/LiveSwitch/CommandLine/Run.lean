import LiveSwitch.CommandLine.Arguments
import LiveSwitch.Config.Basic
import LiveSwitch.Document.Render
import LiveSwitch.Json.Writer
import LiveSwitch.Switch.Basic

/-!
# Commands

What the commands print, write and exit with, given the contents of the files they name.

## Main definitions

* `Report` — the outcome of a command.
* `check`, `reconfig` — the two commands.
* `run` — the outcome of arguments.
-/

namespace LiveSwitch.CommandLine

/-- The outcome of a command. -/
structure Report where
  exit : Nat
  output : String := ""
  /-- A file to be written, by its path, and its text. -/
  dump? : Option (String × String) := none
  deriving DecidableEq, Repr

/-- The exit code of a usage error. -/
def usageExit : Nat := 2

/-- The exit code of any other failure that has no result code. -/
def failureExit : Nat := 1

/-- The exit code when there is no room for what was asked. -/
def noRoomExit : Nat := 101

/-- The most contexts that there is room for: each takes 64 bytes, and no sequence is longer
than `2^63 - 1` bytes. -/
def maxContexts : Nat := 0x1FFFFFFFFFFFFFF

/-- The kinds of objects that `check` counts. -/
def countedKinds : List ObjectKind :=
  [.pipeline, .conditional, .flex, .table, .action, .registerArray, .calculation]

/-- One line of a count: the name of the kind in a column of sixteen, then the number. -/
def countLine (g : Program) (kind : ObjectKind) : String :=
  let column := kind.text.toList ++ List.replicate (16 - kind.text.length) ' '
  s!"{String.ofList column}{g.count kind}\n"

/-- The report of a result code. -/
def reportCode (code : ResultCode) (dump? : Option (String × String)) : Report :=
  { exit := code.number, output := code.text ++ "\n", dump? }

/-- Loads a document and counts its objects. -/
def check (document : FileContent) : Report :=
  match Program.ofFile {} document with
  | .ok (g, _) => { exit := 0, output := String.join (countedKinds.map (countLine g)) }
  | .error _ => reportCode .initFail none

/-- Loads a document, carries out a plan and, if asked to, writes the document of what the
switch then runs.  It uses the first context of the switch, so the others are left out. -/
def reconfig (config : Config) (start donor plan : FileContent) (dump? : Option String) :
    Report :=
  if maxContexts < config.contexts then { exit := noRoomExit }
  else match (Switch.create 1).init 0 start with
  | .error _ => reportCode .initFail none
  | .ok (_, w) =>
    let (code, w) := w.applyPlan 0 donor plan
    let document? := (w.active 0).toOption.map fun g => g.program.document.pretty
    reportCode code (dump?.bind fun path => document?.map fun text => (path, text))

/-- Carries out an invocation over the contents of files. -/
def Invocation.run (i : Invocation) (read : String → FileContent) : Report :=
  match Config.ofFile (read i.config) with
  | .error _ => { exit := failureExit }
  | .ok config =>
    match config.validate with
    | .error _ => { exit := failureExit }
    | .ok () =>
      match i.task with
      | .check document => check (read document)
      | .reconfig start donor plan dump? =>
        reconfig config (read start) (read donor) (read plan) dump?

/-- The files that an invocation reads. -/
def Invocation.files (i : Invocation) : List String :=
  i.config :: match i.task with
    | .check document => [document]
    | .reconfig start donor plan _ => [start, donor, plan]

/-- The outcome of arguments over the contents of files. -/
def run (args : List String) (read : String → FileContent) : Report :=
  match Invocation.ofArguments? args with
  | some i => i.run read
  | none => { exit := usageExit }

end LiveSwitch.CommandLine
