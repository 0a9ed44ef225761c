import LiveSwitch.Document.Load
import LiveSwitch.Plan.Session
import LiveSwitch.Program.Run

/-!
# The switch

A switch has several contexts.  Each runs one generation at a time: a numbered program.
Loading a document and carrying out a plan publish the next generation of a context; a
plan that fails publishes nothing.  The register cells of all contexts live in one store,
so an older generation that is still held sees the cells of the newer ones.

## Main definitions

* `Generation`, `Stats`, `Context`, `Switch` — the state.
* `Outcome`, `Generation.process` — what becomes of a packet.
* `Switch.init` — loads a document.
* `Switch.applyPlan` — carries out a plan and answers with a result code.
* `Switch.process` — runs a packet.
* `Switch.readRegister`, `writeRegister`, `resetRegister`, `registerSnapshot` — register
  access from outside.
* `Switch.addEntry`, `deleteEntry`, `setDefault` — table entries.
-/

namespace LiveSwitch

/-- A program that a context runs or has run. -/
structure Generation where
  /-- How many loads and successful plans made it. -/
  number : Nat := 0
  program : Program := {}

/-- What happened to the plans of a context. -/
structure Stats where
  plansApplied : Nat := 0
  plansFailed : Nat := 0
  commandsApplied : Nat := 0
  /-- The code of the latest plan, once there was one. -/
  lastResult? : Option ResultCode := none
  deriving DecidableEq, Repr, Inhabited

/-- The statistics after one more plan, which carried out some commands or failed. -/
def Stats.record (s : Stats) : Except ReconfigError Nat → Stats
  | .ok commands =>
    { s with
      plansApplied := s.plansApplied + 1
      commandsApplied := s.commandsApplied + commands
      lastResult? := some .success }
  | .error e => { s with plansFailed := s.plansFailed + 1, lastResult? := some e.code }

/-- What became of a packet. -/
structure Outcome where
  packet : Packet
  /-- The number of the generation that the packet ran through. -/
  generation : Nat
  steps : List Step
  failure? : Option RunError
  deriving DecidableEq, Repr

/-- Runs a packet through a generation.  A packet that fails is dropped. -/
def Generation.process (g : Generation) (p : Packet) (s : Store) : Outcome × Store :=
  match g.program.process.run ⟨p, s⟩ with
  | .ok steps m =>
    ({ packet := m.packet, generation := g.number, steps, failure? := none }, m.store)
  | .error e m =>
    ({ packet := m.packet.markToDrop, generation := g.number, steps := [], failure? := some e },
      m.store)

/-- One of the programs that a switch runs side by side. -/
structure Context where
  active : Generation := {}
  stats : Stats := {}

/-- A switch. -/
structure Switch where
  contexts : List Context
  store : Store := {}

/-- Why a switch refuses an operation. -/
inductive SwitchError where
  | unknownContext (index : Nat)
  | load (error : LoadError)
  | notFound (kind : ObjectKind) (name : String)
  | register (error : IndexError)
  | entry (error : EntryError)
  deriving DecidableEq, Repr

/-- The text of a refusal. -/
def SwitchError.message : SwitchError → String
  | unknownContext i => s!"Unknown context {i}"
  | load e => s!"Failed to load configuration: {e.message}"
  | notFound kind name => s!"{kind.text} '{name}' not found"
  | register e => e.message
  | entry e => e.message

namespace Switch

/-- A switch with `n` contexts, each running an empty program. -/
def create (n : Nat) : Switch := { contexts := List.replicate n {} }

/-- A context by its index. -/
def context (w : Switch) (cxt : Nat) : Except SwitchError Context :=
  match w.contexts[cxt]? with
  | some c => .ok c
  | none => .error (.unknownContext cxt)

/-- The generation that a context runs. -/
def active (w : Switch) (cxt : Nat) : Except SwitchError Generation :=
  (w.context cxt).map (·.active)

/-- What happened to the plans of a context. -/
def stats (w : Switch) (cxt : Nat) : Except SwitchError Stats :=
  (w.context cxt).map (·.stats)

/-- Lets a context run another generation. -/
def setActive (w : Switch) (cxt : Nat) (g : Generation) : Switch :=
  { w with contexts := w.contexts.modify cxt fun c => { c with active := g } }

/-- Changes the statistics of a context. -/
def modifyStats (w : Switch) (cxt : Nat) (f : Stats → Stats) : Switch :=
  { w with contexts := w.contexts.modify cxt fun c => { c with stats := f c.stats } }

/-! ### Loading and reconfiguring -/

/-- Loads a document as the next generation of a context and gives its number. -/
def init (w : Switch) (cxt : Nat) (document : FileContent) :
    Except SwitchError (Nat × Switch) := do
  let (program, store) ← (Program.ofFile w.store document).mapError .load
  let c ← w.context cxt
  let number := c.active.number + 1
  return (number, { w with store }.setActive cxt { number, program })

/-- Carries out a plan on a copy of the active program and publishes it if every line
succeeds.  The donor's register arrays have a store of their own, which is never used. -/
def reconfigure (w : Switch) (cxt : Nat) (document plan : FileContent) :
    Switch × Except ReconfigError Nat :=
  match w.contexts[cxt]? with
  | none => (w, .error (.unknownContext cxt))
  | some c =>
    match Program.ofFile {} document with
    | .error e => (w, .error (.init e))
    | .ok (donor, _) =>
      let start : Session := { candidate := c.active.program, store := w.store, donor }
      match start.run plan.planLines with
      | (s, some e) => ({ w with store := s.store }, .error e)
      | (s, none) =>
        let (program, store) := s.candidate.commitArrays s.store
        let next : Generation := { number := c.active.number + 1, program }
        ({ w with store }.setActive cxt next, .ok s.applied)

/-- Opens both inputs, the document first, and reconfigures. -/
def attempt (w : Switch) (cxt : Nat) (document plan : FileContent) :
    Switch × Except ReconfigError Nat :=
  match document, plan with
  | .missing, _ | .blocked, _ => (w, .error .openDocument)
  | _, .missing | _, .blocked => (w, .error .openPlan)
  | document, plan => w.reconfigure cxt document plan

/-- Carries out a plan and answers with its result code. -/
def applyPlan (w : Switch) (cxt : Nat) (document plan : FileContent) : ResultCode × Switch :=
  let (w, outcome) := w.attempt cxt document plan
  (ReconfigError.codeOf outcome, w.modifyStats cxt fun s => s.record outcome)

/-! ### Packets -/

/-- Runs a packet through the active generation of a context. -/
def process (w : Switch) (cxt : Nat) (p : Packet) : Except SwitchError (Outcome × Switch) := do
  let g ← w.active cxt
  let (outcome, store) := g.process p w.store
  return (outcome, { w with store })

/-! ### Registers -/

/-- A register array of the active generation. -/
def array (w : Switch) (cxt : Nat) (name : String) : Except SwitchError RegisterArray := do
  match (← w.active cxt).program.array? name with
  | some a => return a
  | none => throw (.notFound .registerArray name)

/-- Reads a register cell. -/
def readRegister (w : Switch) (cxt : Nat) (name : String) (i : Nat) :
    Except SwitchError UInt64 := do
  ((← w.array cxt name).read w.store i).mapError .register

/-- Writes a register cell. -/
def writeRegister (w : Switch) (cxt : Nat) (name : String) (i : Nat) (v : UInt64) :
    Except SwitchError Switch := do
  let store ← ((← w.array cxt name).write w.store i v).mapError .register
  return { w with store }

/-- Sets all cells of a register array to zero. -/
def resetRegister (w : Switch) (cxt : Nat) (name : String) : Except SwitchError Switch := do
  return { w with store := (← w.array cxt name).reset w.store }

/-- All cells of a register array. -/
def registerSnapshot (w : Switch) (cxt : Nat) (name : String) :
    Except SwitchError (List UInt64) := do
  return (← w.array cxt name).snapshot w.store

/-! ### Table entries -/

/-- Changes a table of the active program; the generation keeps its number. -/
def editTable (w : Switch) (cxt : Nat) (pipeline table : String)
    (edit : Program → Table → Except SwitchError Table) : Except SwitchError Switch := do
  let g ← w.active cxt
  match g.program.pipeline? pipeline with
  | none => throw (.notFound .pipeline pipeline)
  | some p =>
    match p.table? table with
    | none => throw (.notFound .table table)
    | some t =>
      let t ← edit g.program t
      let program := g.program.setPipeline pipeline (p.modifyTable table fun _ => t)
      return w.setActive cxt { g with program }

/-- The id of an action of a table, by its name. -/
def tableAction (g : Program) (t : Table) (action : String) : Except SwitchError Int :=
  match g.actionNamed? t.actionIds action with
  | some id => .ok id
  | none => .error (.notFound .action action)

/-- Adds an entry to a table or replaces the one of its key. -/
def addEntry (w : Switch) (cxt : Nat) (pipeline table : String) (key : List UInt64)
    (action : String) (data : List UInt64) : Except SwitchError Switch :=
  w.editTable cxt pipeline table fun g t => do
    let actionId ← tableAction g t action
    (t.addEntry key { actionId, data }).mapError .entry

/-- Deletes an entry of a table. -/
def deleteEntry (w : Switch) (cxt : Nat) (pipeline table : String) (key : List UInt64) :
    Except SwitchError Switch :=
  w.editTable cxt pipeline table fun _ t => (t.deleteEntry key).mapError .entry

/-- Sets the default entry of a table. -/
def setDefault (w : Switch) (cxt : Nat) (pipeline table action : String)
    (data : List UInt64) : Except SwitchError Switch :=
  w.editTable cxt pipeline table fun g t => do
    let actionId ← tableAction g t action
    (t.setDefault { actionId, data }).mapError .entry

end Switch

end LiveSwitch
