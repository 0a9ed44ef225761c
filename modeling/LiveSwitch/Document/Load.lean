import LiveSwitch.Document.Record
import LiveSwitch.FileContent
import LiveSwitch.Json.Reader
import LiveSwitch.Program.Basic

/-!
# Loading a program from a document

The sections of a document are read in a fixed order: the header sections, register
arrays, calculations, actions, pipelines.  A section is typed as a whole before its
records are checked one by one.  Inside a pipeline the nodes come first, tables before
conditionals; then the edges are resolved by name.

## Main definitions

* `Loader` — a program in the making.
* `Loader.addArray`, `addCalculation`, `addAction`, `addPipeline` — one record each.
* `Program.ofDocument` — the program of a document, with the store that its register
  arrays are added to.
* `Program.ofBytes`, `Program.ofFile` — the program of the bytes or the file of a document.
-/

namespace LiveSwitch

open Json

/-- A program in the making, the store of its register arrays and the ids in use for
nodes. -/
structure Loader where
  program : Program := {}
  store : Store
  conditionalIds : List Int := []
  tableIds : List Int := []

namespace Loader

/-- The refusal of an object of a kind that has a name or id in use. -/
def duplicate (kind : ObjectKind) : DuplicateError → LoadError
  | .name name => .duplicateName kind name
  | .id id => .duplicateId kind id

/-- The records of a section; a section that is absent or null has none. -/
def recordsOf {α : Type} (root : Object) (key : String) (d : Decoder α) :
    Except LoadError (List α) :=
  match root.get? key with
  | none | some .null => .ok []
  | some v =>
    match Decode.listOf d v with
    | some records => .ok records
    | none => .error (.illTyped key)

/-! ### Register arrays, calculations, actions -/

/-- Adds a register array of zeros. -/
def addArray (l : Loader) (r : ArrayRecord) : Except LoadError Loader := do
  unless Register.validSize r.size do throw (.invalidSize r.identity.name r.size)
  unless Register.validBitwidth r.bitwidth do
    throw (.invalidBitwidth r.identity.name r.bitwidth)
  let (a, store) := RegisterArray.zeros r.identity r.size r.bitwidth r.extra l.store
  let arrays ← (l.program.arrays.insert a).mapError (duplicate .registerArray)
  return { l with program := { l.program with arrays }, store }

/-- Adds a calculation. -/
def addCalculation (l : Loader) (r : CalculationRecord) : Except LoadError Loader := do
  let c ← Calculation.ofRecord l.program.layout r
  let calculations ← (l.program.calculations.insert c).mapError (duplicate .calculation)
  return { l with program := { l.program with calculations } }

/-- Adds an action. -/
def addAction (l : Loader) (r : ActionRecord) : Except LoadError Loader := do
  let actions ← l.program.actions.insert (← Action.ofRecord r)
  return { l with program := { l.program with actions } }

/-! ### Nodes -/

/-- Adds a node to a pipeline. -/
def addNode (p : Pipeline) (n : Node) : Except LoadError Pipeline :=
  match p.insertNode n with
  | .ok (_, p) => .ok p
  | .error e => .error (duplicate .node e)

/-- Checks that the actions of a table exist. -/
def checkActions (g : Program) (r : TableRecord) : Except LoadError Unit :=
  r.actionIds.forM fun id =>
    if (g.action? id).isSome then .ok ()
    else .error (.unknownReference .action (toString id) .table r.identity.name)

/-- Adds a table without edges. -/
def addTable (l : Loader) (p : Pipeline) (r : TableRecord) :
    Except LoadError (Loader × Pipeline) := do
  let id := r.identity.id
  if l.tableIds.contains id then throw (.duplicateId .table id)
  checkActions l.program r
  let p ← addNode p (.table (← Table.ofRecord r))
  let tableIds := l.program.tableIds.observe id
  return ({ l with program := { l.program with tableIds }, tableIds := id :: l.tableIds }, p)

/-- The conditional of a record, without edges.  Only a flex node may lack a condition. -/
def conditionalOf (r : ConditionalRecord) : Except LoadError Conditional := do
  let condition? ← r.expression?.mapM Condition.decode
  if condition?.isNone && !r.flex then throw (.conditionalWithoutExpression r.identity.name)
  return { identity := r.identity, condition?, flex := r.flex, extra := r.extra }

/-- Adds a conditional without edges. -/
def addConditional (l : Loader) (p : Pipeline) (r : ConditionalRecord) :
    Except LoadError (Loader × Pipeline) := do
  let id := r.identity.id
  if l.conditionalIds.contains id then throw (.duplicateId .conditional id)
  let p ← addNode p (.conditional (← conditionalOf r))
  let conditionalIds := l.program.conditionalIds.observe id
  return ({ l with
    program := { l.program with conditionalIds }
    conditionalIds := id :: l.conditionalIds }, p)

/-! ### Edges -/

/-- The edge to the node called `target`, which an object refers to; no name is the null
edge. -/
def resolve (p : Pipeline) (kind : ObjectKind) (referrer : String) :
    Option String → Except LoadError Edge
  | none => .ok none
  | some target =>
    match p.find? target with
    | some r => .ok (some r)
    | none => .error (.unknownReference .node target kind referrer)

/-- Sets one of the next nodes of a table: its hit edge, its miss edge, or the edge of one
of its actions. -/
def linkNext (g : Program) (p : Pipeline) (r : TableRecord) (t : Table)
    (next : String × Value) : Except LoadError Table := do
  let e ← resolve p .table r.identity.name next.2.string?
  if next.1 = hitKey then return { t with hitNext? := some e }
  else if next.1 = missKey then return { t with missNext? := some e }
  else
    match g.actionNamed? r.actionIds next.1 with
    | some id => return t.setActionNext id e
    | none => throw (.unknownReference .action next.1 .table r.identity.name)

/-- Sets the edges of a table. -/
def linkTable (g : Program) (p : Pipeline) (r : TableRecord) : Except LoadError Pipeline := do
  let baseNext ← resolve p .table r.identity.name r.baseNext?
  match p.table? r.identity.name with
  | none => throw (.unknownReference .table r.identity.name .table r.identity.name)
  | some t =>
    let t ← r.nextTables.foldlM (linkNext g p r) { t with baseNext }
    return p.modifyTable r.identity.name fun _ => t

/-- Sets the edges of a conditional. -/
def linkConditional (p : Pipeline) (r : ConditionalRecord) : Except LoadError Pipeline := do
  let trueNext ← resolve p .conditional r.identity.name r.trueNext?
  let falseNext ← resolve p .conditional r.identity.name r.falseNext?
  return p.modifyConditional r.identity.name fun c => { c with trueNext, falseNext }

/-! ### Pipelines -/

/-- Adds a pipeline with its nodes and edges. -/
def addPipeline (l : Loader) (r : PipelineRecord) : Except LoadError Loader := do
  let p : Pipeline := { identity := r.identity, extra := r.extra }
  let (l, p) ← r.tables.foldlM (fun (l, p) t => addTable l p t) (l, p)
  let (l, p) ← r.conditionals.foldlM (fun (l, p) c => addConditional l p c) (l, p)
  let p ← r.tables.foldlM (linkTable l.program) p
  let p ← r.conditionals.foldlM linkConditional p
  let init ← resolve p .pipeline r.identity.name r.init?
  let pipelines ←
    (l.program.pipelines.insert { p with init }).mapError (duplicate .pipeline)
  return { l with program := { l.program with pipelines } }

end Loader

namespace Program

/-- The sections that are read into objects and written from them. -/
def sectionKeys : List String := ["register_arrays", "calculations", "actions", "pipelines"]

open Loader in
/-- The program of a document.  The storages of its register arrays are added to `s`. -/
def ofDocument (s : Store) (v : Value) : Except LoadError (Program × Store) :=
  match v.fields? with
  | some root => do
    let layout ← Layout.ofSections (root.get? "header_types") (root.get? "headers")
    let l : Loader := { program := { layout }, store := s }
    let l ← (← recordsOf root "register_arrays" ArrayRecord.decode).foldlM addArray l
    let l ← (← recordsOf root "calculations" CalculationRecord.decode).foldlM addCalculation l
    let l ← (← recordsOf root "actions" ActionRecord.decode).foldlM addAction l
    let l ← (← recordsOf root "pipelines" PipelineRecord.decode).foldlM addPipeline l
    return ({ l.program with extra := root.without sectionKeys }, l.store)
  | none => .error .notAnObject

/-- The program of the bytes of a document. -/
def ofBytes (s : Store) (bytes : ByteArray) : Except LoadError (Program × Store) :=
  match Value.ofBytes? bytes with
  | some root => ofDocument s root
  | none => .error .notJson

/-- The program of the file of a document.  What can be opened but not read is no JSON. -/
def ofFile (s : Store) : FileContent → Except LoadError (Program × Store)
  | .bytes content => ofBytes s content
  | .missing | .blocked => .error .unreadable
  | .unreadable => .error .notJson

end Program

end LiveSwitch
