import LiveSwitch.Program.Basic
import LiveSwitch.ReconfigError
import LiveSwitch.Register.Rehash

/-!
# Edits of a program

Each edit checks the names it is given and then either takes place as a whole or is
refused.  Definitions of new tables and conditionals come from a second program, the
*donor*.  Edits of register arrays never change a storage: a new size or width stays
pending until the program is published, and a rehash writes into storages of its own.

## Main definitions

* `Program.insertConditional`, `insertFlex`, `setConditionalNext`, `deleteConditional` —
  conditionals and flex nodes.
* `Program.insertTable`, `setTableNext`, `deleteTable` — tables.
* `Program.insertArray`, `resizeArray`, `rewidenArray`, `deleteArray`, `rehashArray` —
  register arrays.
* `Program.commitArrays` — carries out what is pending.
-/

namespace LiveSwitch

/-- The edge to the node called `target`; no name is the null edge. -/
def Pipeline.edgeTo (p : Pipeline) : Option String → Except ReconfigError Edge
  | none => .ok none
  | some target =>
    match p.find? target with
    | some r => .ok (some r)
    | none => .error (.notFound .node target)

/-- Adds a node of a kind; its name must be free. -/
def Pipeline.adopt (p : Pipeline) (kind : ObjectKind) (n : Node) :
    Except ReconfigError Pipeline :=
  match p.insertNode n with
  | .ok (_, p) => .ok p
  | .error _ => .error (.duplicate kind n.name)

namespace Program

/-- The pipeline called `name`. -/
def existingPipeline (g : Program) (name : String) : Except ReconfigError Pipeline :=
  match g.pipeline? name with
  | some p => .ok p
  | none => .error (.notFound .pipeline name)

/-- The register array that `name` leads to. -/
def existingArray (g : Program) (name : String) : Except ReconfigError RegisterArray :=
  match g.array? name with
  | some a => .ok a
  | none => .error (.notFound .registerArray name)

/-- Puts a pipeline in the place of the one called `name`. -/
def setPipeline (g : Program) (name : String) (p : Pipeline) : Program :=
  { g with pipelines := g.pipelines.modify name fun _ => p }

/-- Puts a register array in the place of the one that `name` leads to. -/
def setArray (g : Program) (name : String) (a : RegisterArray) : Program :=
  { g with arrays := g.arrays.alter name fun _ => a }

/-! ### Conditionals -/

/-- Adds a conditional under the next free id, by the definition given. -/
def insertConditional (g : Program) (pipeline name : String)
    (definition? : Option Conditional) : Except ReconfigError Program := do
  let p ← g.existingPipeline pipeline
  if (p.find? name).isSome then throw (.duplicate .conditional name)
  match definition? with
  | none => throw (.notFound .conditional name)
  | some d =>
    let p ← p.adopt .conditional (.conditional (d.instantiate name g.conditionalIds.next))
    return { g.setPipeline pipeline p with conditionalIds := g.conditionalIds.bump }

/-- Adds a flex node with the given edges under the next free id. -/
def insertFlex (g : Program) (pipeline name : String) (falseNext? trueNext? : Option String) :
    Except ReconfigError Program := do
  let p ← g.existingPipeline pipeline
  if (p.find? name).isSome then throw (.duplicate .flex name)
  let falseNext ← p.edgeTo falseNext?
  let trueNext ← p.edgeTo trueNext?
  let flex : Conditional :=
    { identity := { name, id := g.conditionalIds.next }, condition? := none, trueNext,
      falseNext, flex := true }
  let p ← p.adopt .flex (.conditional flex)
  return { g.setPipeline pipeline p with conditionalIds := g.conditionalIds.bump }

/-- Sets an edge of a conditional or flex node. -/
def setConditionalNext (g : Program) (pipeline name : String) (branch : Branch)
    (target? : Option String) : Except ReconfigError Program := do
  let p ← g.existingPipeline pipeline
  let e ← p.edgeTo target?
  if (p.conditional? name).isNone then throw (.notFound .conditional name)
  return g.setPipeline pipeline (p.modifyConditional name (·.setNext branch e))

/-- Deletes a conditional or flex node. -/
def deleteConditional (g : Program) (pipeline name : String) :
    Except ReconfigError Program := do
  let p ← g.existingPipeline pipeline
  if (p.conditional? name).isNone then throw (.notFound .conditional name)
  return g.setPipeline pipeline (p.removeNode name)

/-! ### Tables -/

/-- Copies a calculation of the donor under the next free id, unless one of its name is there.
The id may be in use, which is reported as if the name were. -/
def adoptCalculation (donor g : Program) (name : String) : Except ReconfigError Program :=
  if g.calculations.contains name then .ok g
  else
    match donor.calculation? name with
    | none => .ok g
    | some c =>
      match g.calculations.insert (c.withId g.calculations.nextId) with
      | .ok calculations => .ok { g with calculations }
      | .error _ => .error (.duplicate .calculation name)

/-- Copies an action of the donor under the next free id, after the calculations that it
uses. -/
def adoptAction (donor g : Program) (a : Action) : Except ReconfigError Program := do
  let g ← a.calculations.foldlM (adoptCalculation donor) g
  return { g with actions := g.actions.insertCopy a }

/-- Copies actions of the donor in turn; the ids of the copies come along. -/
def adoptActions (donor : Program) :
    Program → List Action → Except ReconfigError (Program × List Int)
  | g, [] => .ok (g, [])
  | g, a :: as => do
    let id := g.actions.nextId
    let (g, ids) ← adoptActions donor (← adoptAction donor g a) as
    return (g, id :: ids)

/-- The actions of some ids. -/
def existingActions (g : Program) (ids : List Int) : Except ReconfigError (List Action) :=
  ids.mapM fun id =>
    match g.action? id with
    | some a => .ok a
    | none => .error (.notFound .action (toString id))

/-- Adds a table by the definition of the donor's table of the same name in its pipeline of
the same name. -/
def insertTable (g : Program) (donor : Program) (pipeline name : String) :
    Except ReconfigError Program := do
  let p ← g.existingPipeline pipeline
  if (p.find? name).isSome then throw (.duplicate .table name)
  match (donor.pipeline? pipeline).bind (·.table? name) with
  | none => throw (.notFound .table name)
  | some definition =>
    let actions ← donor.existingActions definition.actionIds
    let (g, ids) ← adoptActions donor g actions
    let p ← p.adopt .table (.table (definition.instantiate name g.tableIds.next ids))
    return { g.setPipeline pipeline p with tableIds := g.tableIds.bump }

/-- Sets an edge of a table.  Setting the hit or the miss edge gives hits or misses an edge
of their own. -/
def setTableNext (g : Program) (pipeline name : String) (slot : TableSlot)
    (target? : Option String) : Except ReconfigError Program := do
  let p ← g.existingPipeline pipeline
  let e ← p.edgeTo target?
  match p.table? name with
  | none => throw (.notFound .table name)
  | some t =>
    let edit : Table → Table ← match slot with
      | .baseDefault => pure fun t => { t with baseNext := e }
      | .hit => pure fun t => { t with hitNext? := some e }
      | .miss => pure fun t => { t with missNext? := some e }
      | .action action =>
        match g.actionNamed? t.actionIds action with
        | some id => pure fun t => t.setActionNext id e
        | none => throw (.notFound .action action)
    return g.setPipeline pipeline (p.modifyTable name edit)

/-- Deletes a table. -/
def deleteTable (g : Program) (pipeline name : String) : Except ReconfigError Program := do
  let p ← g.existingPipeline pipeline
  if (p.table? name).isNone then throw (.notFound .table name)
  return g.setPipeline pipeline (p.removeNode name)

/-! ### Register arrays -/

/-- Adds a register array of zeros under the next free id.  An array that has the id leaves. -/
def insertArray (g : Program) (s : Store) (name : String) (size bitwidth : Nat) :
    Except ReconfigError (Program × Store) :=
  let zeros (id : Int) := RegisterArray.zeros { name, id } size bitwidth [] s
  match g.arrays.insertNew name fun id => (zeros id).1 with
  | .ok arrays => .ok ({ g with arrays }, (zeros g.arrays.nextId).2)
  | .error _ => .error (.duplicate .registerArray name)

/-- Gives a register array another number of cells. -/
def resizeArray (g : Program) (name : String) (size : Nat) : Except ReconfigError Program := do
  return g.setArray name ((← g.existingArray name).resized size)

/-- Gives the cells of a register array another width. -/
def rewidenArray (g : Program) (name : String) (bitwidth : Nat) :
    Except ReconfigError Program := do
  return g.setArray name ((← g.existingArray name).rewidened bitwidth)

/-- Deletes the register array that `name` leads to. -/
def deleteArray (g : Program) (name : String) : Except ReconfigError Program := do
  let _ ← g.existingArray name
  return { g with arrays := g.arrays.remove name }

/-- The arrays and hashes of a rehash, by name. -/
structure RehashSpec where
  target : String
  recording : String
  lastPos : String
  counting : String
  countingHash : HashAlgorithm
  targetHashes : HashTriple
  reset : String
  deriving DecidableEq, Repr

/-- Makes the marks of a filter anew from the recorded values and clears the reset array.
Both get storages of their own; the cleared array wins if they are the same. -/
def rehashArray (g : Program) (s : Store) (r : RehashSpec) :
    Except ReconfigError (Program × Store) := do
  let target ← g.existingArray r.target
  let recording ← g.existingArray r.recording
  let lastPos ← g.existingArray r.lastPos
  let counting ← g.existingArray r.counting
  let reset ← g.existingArray r.reset
  let inputs : RehashInputs :=
    { recording, lastPos, counting, countingHash := r.countingHash,
      targetHashes := r.targetHashes }
  let (rehashed, s) := target.rehashed inputs s
  let (cleared, s) := reset.cleared s
  return ((g.setArray r.target rehashed).setArray r.reset cleared, s)

/-- Carries out the pending steps of an array, if there are any. -/
def commitArray (a : RegisterArray) (s : Store) : RegisterArray × Store :=
  if a.isPending then a.committed s else (a, s)

/-- Carries out the pending steps of arrays in turn. -/
def commitAll : List RegisterArray → Store → List RegisterArray × Store
  | [], s => ([], s)
  | a :: as, s =>
    let (a, s) := commitArray a s
    let (as, s) := commitAll as s
    (a :: as, s)

/-- Carries out the pending steps of every array. -/
def commitArrays (g : Program) (s : Store) : Program × Store :=
  let (objects, s) := commitAll g.arrays.objects s
  ({ g with arrays := { g.arrays with objects } }, s)

end Program

end LiveSwitch
