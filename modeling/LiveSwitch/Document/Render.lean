import LiveSwitch.Document.Record
import LiveSwitch.Program.Basic

/-!
# Writing a program as a document

The document of a program lists its register arrays, calculations, actions and pipelines
in the order of their ids, tables and conditionals likewise inside their pipeline.  An
edge is written as the name of the node it leads to; an edge to a deleted node is written
as null.  Sections without a meaning here are written as they were read.

## Main definitions

* `Pipeline.toRecord`, `Table.toRecord`, `Conditional.toRecord`, `RegisterArray.toRecord` —
  the records of the objects.
* `Program.document` — the document.
* `Program.entry?` — one entry of the document.
-/

namespace LiveSwitch

open Json

/-- The record of a register array. -/
def RegisterArray.toRecord (a : RegisterArray) : ArrayRecord :=
  { identity := a.identity, size := a.size, bitwidth := a.bitwidth, extra := a.extra }

/-- The record of a conditional. -/
def Conditional.toRecord (p : Pipeline) (c : Conditional) : ConditionalRecord :=
  { identity := c.identity
    expression? := c.condition?.map Condition.json
    trueNext? := p.nodeName? c.trueNext
    falseNext? := p.nodeName? c.falseNext
    flex := c.flex
    extra := c.extra }

/-- The name of the node that an edge leads to, or null. -/
def Pipeline.edgeJson (p : Pipeline) (e : Edge) : Value := Record.textOrNull (p.nodeName? e)

/-- The next nodes of a table: those of its actions by name, then hit and miss. -/
def Table.nextTables (p : Pipeline) (actions : ActionTable) (t : Table) : Object :=
  let byAction := t.nextByAction.filterMap fun (id, e) =>
    (actions.get? id).map fun a => (a.name, p.edgeJson e)
  let hit := t.hitNext?.toList.map fun e => (hitKey, p.edgeJson e)
  let miss := t.missNext?.toList.map fun e => (missKey, p.edgeJson e)
  Object.ofList (byAction ++ hit ++ miss)

/-- The record of a table. -/
def Table.toRecord (p : Pipeline) (actions : ActionTable) (t : Table) : TableRecord :=
  { identity := t.identity
    key := t.keyJson
    matchType := t.matchType
    actionIds := t.actionIds
    actions := t.actionIds.map fun id => ((actions.get? id).map Action.name).getD ""
    baseNext? := p.nodeName? t.baseNext
    nextTables := t.nextTables p actions
    default? := t.default?.map DefaultEntry.toRecord
    extra := t.extra }

/-- The record of a pipeline. -/
def Pipeline.toRecord (actions : ActionTable) (p : Pipeline) : PipelineRecord :=
  { identity := p.identity
    init? := p.nodeName? p.init
    tables := p.tables.map (Table.toRecord p actions)
    conditionals := p.conditionals.map (Conditional.toRecord p)
    extra := p.extra }

namespace Program

/-- The four sections that list records. -/
def sections (g : Program) : List (String × Value) :=
  [("register_arrays", .array (g.arrays.objects.map (·.toRecord.encode))),
    ("calculations", .array (g.calculations.objects.map (·.toRecord.encode))),
    ("actions", .array (g.actions.actions.map (·.toRecord.encode))),
    ("pipelines", .array (g.pipelines.objects.map fun p => (p.toRecord g.actions).encode))]

/-- The document of a program. -/
def document (g : Program) : Value := .object (g.extra.insertAll g.sections)

/-- The entry of a node, if it is of the kind asked for. -/
def nodeEntry? (g : Program) (kind : ObjectKind) (p : Pipeline) : Node → Option Value
  | .conditional c =>
    match kind with
    | .node | .conditional => some (c.toRecord p).encode
    | .flex => if c.flex then some (c.toRecord p).encode else none
    | _ => none
  | .table t =>
    match kind with
    | .node | .table => some (t.toRecord p g.actions).encode
    | _ => none

/-- The entry of an object in the document.  Nodes need the name of their pipeline; of
actions with one name the lowest id counts. -/
def entry? (g : Program) (kind : ObjectKind) (pipeline? : Option String) (name : String) :
    Option Value :=
  match kind with
  | .pipeline => (g.pipeline? name).map fun p => (p.toRecord g.actions).encode
  | .node | .conditional | .flex | .table => do
    let p ← g.pipeline? (← pipeline?)
    g.nodeEntry? kind p (← p.node? name)
  | .action => (g.actions.findByName? name).map (·.toRecord.encode)
  | .registerArray => (g.array? name).map (·.toRecord.encode)
  | .calculation => (g.calculation? name).map (·.toRecord.encode)

end Program

end LiveSwitch
