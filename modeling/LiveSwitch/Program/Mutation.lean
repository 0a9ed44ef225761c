import LiveSwitch.Program.Edit

/-!
# Edits in place

The edits once more, as a caller with a program at hand makes them: a mutation changes the
program and the store bit by bit, and every line of it reads what the lines before have
left.  A refusal comes with the state that it leaves behind.

## Main definitions

* `Mutating` — computations that change a program and the store of its arrays.
* `Program.InPlace` — the edits in place, each under the name that it has as a whole.
* `Mutation` — the twelve edits as one type, with all their arguments.
* `Mutation.attempt`, `Mutation.inPlace` — an edit as a whole and in place.
-/

namespace LiveSwitch

/-- A computation that changes a program and the store of its arrays.  What it has changed
by the time it is refused stays changed. -/
abbrev Mutating := EStateM ReconfigError (Program × Store)

namespace Mutating

variable {α : Type}

/-- A part of the program as it is now. -/
def peek (f : Program → α) : Mutating α := return f (← get).1

/-- What a look-up finds in the program as it is now. -/
def look (f : Program → Except ReconfigError α) : Mutating α := do
  match ← peek f with
  | .ok a => return a
  | .error e => throw e

/-- Changes the program. -/
def change (f : Program → Program) : Mutating Unit := modify fun (g, s) => (f g, s)

/-- Makes something that lies in the store. -/
def allocate (f : Store → α × Store) : Mutating α :=
  modifyGet fun (g, s) => ((f s).1, (g, (f s).2))

/-- The state that a computation leaves behind, be it refused or not. -/
def after (x : Mutating α) (state : Program × Store) : Program × Store :=
  match x.run state with
  | .ok _ state => state
  | .error _ state => state

end Mutating

namespace Program.InPlace

open Mutating

/-! ### Conditionals -/

/-- Puts a node under the next free id of the conditionals into a pipeline. -/
def addConditional (kind : ObjectKind) (pipeline : String) (p : Pipeline) (c : Conditional) :
    Mutating Unit := do
  let p ← look fun _ => p.adopt kind (.conditional c)
  change (·.setPipeline pipeline p)
  change fun g => { g with conditionalIds := g.conditionalIds.bump }

/-- Adds a conditional by the definition given; its id is looked up before everything else. -/
def insertConditional (pipeline name : String) (definition? : Option Conditional) :
    Mutating Unit := do
  let id ← peek (·.conditionalIds.next)
  let p ← look (·.existingPipeline pipeline)
  if (p.find? name).isSome then throw (.duplicate .conditional name)
  match definition? with
  | none => throw (.notFound .conditional name)
  | some d => addConditional .conditional pipeline p (d.instantiate name id)

/-- Adds a flex node with the given edges. -/
def insertFlex (pipeline name : String) (falseNext? trueNext? : Option String) :
    Mutating Unit := do
  let id ← peek (·.conditionalIds.next)
  let p ← look (·.existingPipeline pipeline)
  if (p.find? name).isSome then throw (.duplicate .flex name)
  let falseNext ← look fun _ => p.edgeTo falseNext?
  let trueNext ← look fun _ => p.edgeTo trueNext?
  addConditional .flex pipeline p
    { identity := { name, id }, condition? := none, trueNext, falseNext, flex := true }

/-- Sets an edge of a conditional or flex node. -/
def setConditionalNext (pipeline name : String) (branch : Branch) (target? : Option String) :
    Mutating Unit := do
  let p ← look (·.existingPipeline pipeline)
  let e ← look fun _ => p.edgeTo target?
  if (p.conditional? name).isNone then throw (.notFound .conditional name)
  change (·.setPipeline pipeline (p.modifyConditional name (·.setNext branch e)))

/-- Deletes a conditional or flex node. -/
def deleteConditional (pipeline name : String) : Mutating Unit := do
  let p ← look (·.existingPipeline pipeline)
  if (p.conditional? name).isNone then throw (.notFound .conditional name)
  change (·.setPipeline pipeline (p.removeNode name))

/-! ### Tables -/

/-- Copies a calculation of the donor under the next free id, unless one of its name is
there. -/
def copyCalculation (donor : Program) (name : String) : Mutating Unit := do
  let calculations ← peek (·.calculations)
  if calculations.contains name then return
  match donor.calculation? name with
  | none => return
  | some c =>
    match calculations.insert (c.withId calculations.nextId) with
    | .ok calculations => change fun g => { g with calculations }
    | .error _ => throw (.duplicate .calculation name)

/-- Copies the calculations that an action uses and then the action, and gives the id of the
copy. -/
def copyAction (donor : Program) (a : Action) : Mutating Int := do
  a.calculations.forM (copyCalculation donor)
  let id ← peek (·.actions.nextId)
  change fun g => { g with actions := g.actions.insertCopy a }
  return id

/-- Takes the next free id of the tables. -/
def takeTableId : Mutating Int := do
  let id ← peek (·.tableIds.next)
  change fun g => { g with tableIds := g.tableIds.bump }
  return id

/-- Adds a table by a definition of the donor.  Its actions and their calculations come first. -/
def insertTable (donor : Program) (pipeline name : String) : Mutating Unit := do
  let p ← look (·.existingPipeline pipeline)
  if (p.find? name).isSome then throw (.duplicate .table name)
  match (donor.pipeline? pipeline).bind (·.table? name) with
  | none => throw (.notFound .table name)
  | some definition =>
    let actions ← look fun _ => donor.existingActions definition.actionIds
    let ids ← actions.mapM (copyAction donor)
    let id ← takeTableId
    let p ← look (·.existingPipeline pipeline)
    let p ← look fun _ => p.adopt .table (.table (definition.instantiate name id ids))
    change (·.setPipeline pipeline p)

/-- Sets an edge of a table. -/
def setTableNext (pipeline name : String) (slot : TableSlot) (target? : Option String) :
    Mutating Unit := do
  let p ← look (·.existingPipeline pipeline)
  let e ← look fun _ => p.edgeTo target?
  let set (edit : Table → Table) := change (·.setPipeline pipeline (p.modifyTable name edit))
  match p.table? name with
  | none => throw (.notFound .table name)
  | some t =>
    match slot with
    | .baseDefault => set fun t => { t with baseNext := e }
    | .hit => set fun t => { t with hitNext? := some e }
    | .miss => set fun t => { t with missNext? := some e }
    | .action action =>
      match ← peek (·.actionNamed? t.actionIds action) with
      | some id => set (·.setActionNext id e)
      | none => throw (.notFound .action action)

/-- Deletes a table. -/
def deleteTable (pipeline name : String) : Mutating Unit := do
  let p ← look (·.existingPipeline pipeline)
  if (p.table? name).isNone then throw (.notFound .table name)
  change (·.setPipeline pipeline (p.removeNode name))

/-! ### Register arrays -/

/-- Puts a register array in the place of the one that `name` leads to, which must be there. -/
def replaceArray (name : String) (a : RegisterArray) : Mutating Unit := do
  let _ ← look (·.existingArray name)
  change (·.setArray name a)

/-- Adds a register array of zeros, whose name must be free. -/
def insertArray (name : String) (size bitwidth : Nat) : Mutating Unit := do
  if ← peek (·.arrays.contains name) then throw (.duplicate .registerArray name)
  let id ← peek (·.arrays.nextId)
  let a ← allocate (RegisterArray.zeros { name, id } size bitwidth [])
  let arrays ← look fun g =>
    (g.arrays.insertNew name fun _ => a).mapError fun _ => .duplicate .registerArray name
  change fun g => { g with arrays }

/-- Gives a register array another number of cells. -/
def resizeArray (name : String) (size : Nat) : Mutating Unit := do
  let a ← look (·.existingArray name)
  replaceArray name (a.resized size)

/-- Gives the cells of a register array another width. -/
def rewidenArray (name : String) (bitwidth : Nat) : Mutating Unit := do
  let a ← look (·.existingArray name)
  replaceArray name (a.rewidened bitwidth)

/-- Gives the name of a register array up.  Only then it shows whether the name led to one. -/
def deleteArray (name : String) : Mutating Unit := do
  let a? ← peek (·.array? name)
  change fun g => { g with arrays := g.arrays.remove name }
  if a?.isNone then throw (.notFound .registerArray name)

/-- Makes the marks of a filter anew and clears the reset array, one after the other. -/
def rehashArray (r : RehashSpec) : Mutating Unit := do
  let target ← look (·.existingArray r.target)
  let recording ← look (·.existingArray r.recording)
  let lastPos ← look (·.existingArray r.lastPos)
  let counting ← look (·.existingArray r.counting)
  let reset ← look (·.existingArray r.reset)
  let inputs : RehashInputs :=
    { recording, lastPos, counting, countingHash := r.countingHash,
      targetHashes := r.targetHashes }
  let rehashed ← allocate (target.rehashed inputs)
  let cleared ← allocate reset.cleared
  replaceArray r.target rehashed
  replaceArray r.reset cleared

end Program.InPlace

/-! ### The edits as one type -/

/-- An edit with its arguments: a conditional may come from anywhere, a table from any
donor. -/
inductive Mutation where
  | insertConditional (pipeline name : String) (definition? : Option Conditional)
  | insertFlex (pipeline name : String) (falseNext? trueNext? : Option String)
  | setConditionalNext (pipeline name : String) (branch : Branch) (target? : Option String)
  | deleteConditional (pipeline name : String)
  | insertTable (donor : Program) (pipeline name : String)
  | setTableNext (pipeline name : String) (slot : TableSlot) (target? : Option String)
  | deleteTable (pipeline name : String)
  | insertArray (name : String) (size bitwidth : Nat)
  | resizeArray (name : String) (size : Nat)
  | rewidenArray (name : String) (bitwidth : Nat)
  | deleteArray (name : String)
  | rehashArray (r : Program.RehashSpec)

namespace Mutation

/-- The edit as a whole: what it makes of a program and its store, or why it is refused. -/
def attempt (m : Mutation) (g : Program) (s : Store) : Except ReconfigError (Program × Store) :=
  match m with
  | insertConditional pipeline name definition? =>
    (g.insertConditional pipeline name definition?).map (·, s)
  | insertFlex pipeline name falseNext? trueNext? =>
    (g.insertFlex pipeline name falseNext? trueNext?).map (·, s)
  | setConditionalNext pipeline name branch target? =>
    (g.setConditionalNext pipeline name branch target?).map (·, s)
  | deleteConditional pipeline name => (g.deleteConditional pipeline name).map (·, s)
  | insertTable donor pipeline name => (g.insertTable donor pipeline name).map (·, s)
  | setTableNext pipeline name slot target? =>
    (g.setTableNext pipeline name slot target?).map (·, s)
  | deleteTable pipeline name => (g.deleteTable pipeline name).map (·, s)
  | insertArray name size bitwidth => g.insertArray s name size bitwidth
  | resizeArray name size => (g.resizeArray name size).map (·, s)
  | rewidenArray name bitwidth => (g.rewidenArray name bitwidth).map (·, s)
  | deleteArray name => (g.deleteArray name).map (·, s)
  | rehashArray r => g.rehashArray s r

/-- Carries out an edit in place. -/
def inPlace : Mutation → Mutating Unit
  | insertConditional pipeline name definition? =>
    Program.InPlace.insertConditional pipeline name definition?
  | insertFlex pipeline name falseNext? trueNext? =>
    Program.InPlace.insertFlex pipeline name falseNext? trueNext?
  | setConditionalNext pipeline name branch target? =>
    Program.InPlace.setConditionalNext pipeline name branch target?
  | deleteConditional pipeline name => Program.InPlace.deleteConditional pipeline name
  | insertTable donor pipeline name => Program.InPlace.insertTable donor pipeline name
  | setTableNext pipeline name slot target? =>
    Program.InPlace.setTableNext pipeline name slot target?
  | deleteTable pipeline name => Program.InPlace.deleteTable pipeline name
  | insertArray name size bitwidth => Program.InPlace.insertArray name size bitwidth
  | resizeArray name size => Program.InPlace.resizeArray name size
  | rewidenArray name bitwidth => Program.InPlace.rewidenArray name bitwidth
  | deleteArray name => Program.InPlace.deleteArray name
  | rehashArray r => Program.InPlace.rehashArray r

end Mutation

end LiveSwitch
