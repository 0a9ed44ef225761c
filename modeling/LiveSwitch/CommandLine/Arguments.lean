/-!
# Arguments of the command line

Two commands: `check` loads a document and counts its objects, `reconfig` carries out a
plan.  The options for the configuration file and the log level may stand before or after
the command; a value after the command counts.

## Main definitions

* `Flag`, `scan` — options with values at the front of the arguments.
* `Invocation` — what the arguments ask for.
* `Invocation.ofArguments?` — the invocation of arguments; none on a usage error.
-/

namespace LiveSwitch.CommandLine

/-- An option with a value. -/
structure Flag where
  long : String
  short? : Option Char := none
  /-- Whether the value is a path, which cannot be empty. -/
  isPath : Bool := true
  deriving DecidableEq, Repr

/-- The options that were given, by their long names. -/
abbrev Given := List (String × String)

/-- A word that can stand as the value of an option: it does not look like an option. -/
def isValue (s : String) : Bool := s == "-" || s.toList.head? != some '-'

/-- Notes the value of an option; an option can be given only once. -/
def note? (given : Given) (flag : Flag) (value : String) : Option Given :=
  if (given.lookup flag.long).isSome || (flag.isPath && value.isEmpty) then none
  else some ((flag.long, value) :: given)

/-- The option of a word and its value, if the word holds one. -/
def flagOf? (flags : List Flag) (word : String) : Option (Flag × Option String) :=
  match word.toList with
  | '-' :: '-' :: cs =>
    let name := cs.takeWhile (· != '=')
    let value? := match cs.drop name.length with
      | _ :: v => some (String.ofList v)
      | [] => none
    (flags.find? fun f => f.long == String.ofList name).map fun f => (f, value?)
  | '-' :: c :: cs =>
    let value? := match cs with
      | [] => none
      | '=' :: v => some (String.ofList v)
      | v => some (String.ofList v)
    (flags.find? fun f => f.short? == some c).map fun f => (f, value?)
  | _ => none

/-- Takes options off the front of the arguments, up to the first word that is none. -/
def scan (flags : List Flag) (given : Given) : List String → Option (Given × List String)
  | [] => some (given, [])
  | word :: rest =>
    if word == "-" || word.toList.head? != some '-' then some (given, word :: rest)
    else if word == "--" then if rest.isEmpty then some (given, []) else none
    else
      match flagOf? flags word, rest with
      | some (flag, some value), rest => (note? given flag value).bind fun g => scan flags g rest
      | some (flag, none), value :: rest =>
        if isValue value then (note? given flag value).bind fun g => scan flags g rest
        else none
      | _, _ => none

/-- The options that every command takes. -/
def globalFlags : List Flag :=
  [{ long := "config", short? := some 'c' },
    { long := "log-level", short? := some 'l', isPath := false }]

/-- The configuration file that is read when none is named. -/
def defaultConfig : String := "/etc/live-switch/live-switch.toml"

/-- A command with its options. -/
inductive Task where
  /-- Loads a document and prints the number of its objects. -/
  | check (document : String)
  /-- Carries out a plan on a document, with definitions from another one. -/
  | reconfig (start donor plan : String) (dump? : Option String)
  deriving DecidableEq, Repr

/-- What the arguments ask for. -/
structure Invocation where
  config : String
  logLevel? : Option String
  task : Task
  deriving DecidableEq, Repr

/-- The options of a command. -/
def taskFlags : String → Option (List Flag)
  | "check" => some [{ long := "json" }]
  | "reconfig" => some [{ long := "init" }, { long := "new" }, { long := "plan" },
      { long := "dump" }]
  | _ => none

/-- The command of a name and its options. -/
def Task.ofGiven? (command : String) (given : Given) : Option Task :=
  if command = "check" then return .check (← given.lookup "json")
  else do
    return .reconfig (← given.lookup "init") (← given.lookup "new") (← given.lookup "plan")
      (given.lookup "dump")

/-- The invocation of arguments; none on a usage error. -/
def Invocation.ofArguments? (args : List String) : Option Invocation := do
  let (before, rest) ← scan globalFlags [] args
  match rest with
  | [] => none
  | command :: rest =>
    let flags ← taskFlags command
    let (given, rest) ← scan (globalFlags ++ flags) [] rest
    guard rest.isEmpty
    let all := given ++ before
    return {
      config := (all.lookup "config").getD defaultConfig
      logLevel? := all.lookup "log-level"
      task := ← Task.ofGiven? command given }

end LiveSwitch.CommandLine
