import LiveSwitch.Config.Toml
import LiveSwitch.FileContent

/-!
# Runtime configuration

The settings of a running switch.  Every one has a default, so a file, a table or a key may
be missing; keys and tables that are not known are passed over.

## Main definitions

* `Config` — the settings, with `Config.validate`.
* `Config.ofText`, `Config.ofFile` — the settings of a text and of a file.
* `Config.text` — the settings as they are saved.
-/

namespace LiveSwitch

open Toml

/-- Why a configuration is refused. -/
inductive ConfigError where
  /-- The file cannot be read or is no text. -/
  | unreadable
  | parse
  | mustBePositive (setting : String)
  deriving DecidableEq, Repr

/-- The text of a refusal. -/
def ConfigError.message : ConfigError → String
  | unreadable => "Failed to read config file"
  | parse => "Failed to parse config file"
  | mustBePositive setting => s!"Invalid configuration: {setting} must be > 0"

/-- The settings of a running switch. -/
structure Config where
  /-- The number of packet workers. -/
  workers : Nat := 4
  /-- The number of packets that wait for one worker. -/
  queueDepth : Nat := 1024
  /-- Which messages are logged. -/
  level : String := "info"
  /-- Whether messages are logged as JSON. -/
  json : Bool := false
  contexts : Nat := 1
  deriving DecidableEq, Repr, Inhabited

namespace Config

/-- A count of 64 bits; absent, it is the default. -/
def count? (s : Settings) (p : Path) (default : Nat) : Option Nat :=
  match s.get? p with
  | none => if s.isTable p then none else some default
  | some (.integer (.ofNat n)) => if n < UInt64.size then some n else none
  | some _ => none

/-- A text; absent, it is the default. -/
def text? (s : Settings) (p : Path) (default : String) : Option String :=
  match s.get? p with
  | none => if s.isTable p then none else some default
  | some (.text t) => some t
  | some _ => none

/-- A truth value; absent, it is the default. -/
def truth? (s : Settings) (p : Path) (default : Bool) : Option Bool :=
  match s.get? p with
  | none => if s.isTable p then none else some default
  | some (.truth b) => some b
  | some _ => none

/-- The configuration of settings.  The three known names must be tables if they are
there. -/
def ofSettings? (s : Settings) : Option Config := do
  let known := [["dataplane"], ["logging"], ["switch"]]
  if known.any fun p => s.isBelowValue p || s.arrays.contains p then none
  return {
    workers := ← count? s ["dataplane", "workers"] 4
    queueDepth := ← count? s ["dataplane", "queue_depth"] 1024
    level := ← text? s ["logging", "level"] "info"
    json := ← truth? s ["logging", "json"] false
    contexts := ← count? s ["switch", "contexts"] 1 }

/-- The configuration of a text. -/
def ofText (s : String) : Except ConfigError Config :=
  match (Settings.ofText? s).bind ofSettings? with
  | some c => .ok c
  | none => .error .parse

/-- The configuration of a file; a missing file stands for the defaults. -/
def ofFile : FileContent → Except ConfigError Config
  | .missing => .ok {}
  | .blocked | .unreadable => .error .unreadable
  | .bytes b =>
    match String.fromUTF8? b with
    | some s => ofText s
    | none => .error .unreadable

/-- Checks that no count is zero. -/
def validate (c : Config) : Except ConfigError Unit :=
  if c.workers = 0 then .error (.mustBePositive "workers")
  else if c.queueDepth = 0 then .error (.mustBePositive "queue_depth")
  else if c.contexts = 0 then .error (.mustBePositive "contexts")
  else .ok ()

/-- The configuration as it is saved. -/
def text (c : Config) : String :=
  s!"[dataplane]\nworkers = {c.workers}\nqueue_depth = {c.queueDepth}\n\n" ++
    s!"[logging]\nlevel = \"{c.level}\"\njson = {c.json}\n\n" ++
    s!"[switch]\ncontexts = {c.contexts}\n"

end Config

end LiveSwitch
