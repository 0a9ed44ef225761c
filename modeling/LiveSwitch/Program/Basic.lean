import LiveSwitch.Action
import LiveSwitch.Calculation
import LiveSwitch.Pipeline.Basic
import LiveSwitch.Register.Array

/-!
# Programs

A program is everything that one generation of a switch runs: pipelines, actions, register
arrays, calculations and the widths of the fields, with the counters from which new
objects get their ids and the sections of the document that have no meaning here.

## Main definitions

* `Program` — a program.
* `Program.count`, `Program.nextId` — the number of objects of a kind and the id that the
  next one gets.
-/

namespace LiveSwitch

open Json

/-- What one generation of a switch runs. -/
structure Program where
  pipelines : ObjectMap Pipeline := {}
  actions : ActionTable := {}
  arrays : ObjectMap RegisterArray := {}
  calculations : ObjectMap Calculation := {}
  layout : Layout := {}
  conditionalIds : IdCounter := {}
  tableIds : IdCounter := {}
  /-- The sections of the document that have no meaning here. -/
  extra : Object := []

namespace Program

/-- The program without objects. -/
def empty : Program := {}

/-- The pipeline called `name`. -/
def pipeline? (g : Program) (name : String) : Option Pipeline := g.pipelines.get? name

/-- The register array that `name` leads to.  Register arrays are the only objects of a map that
get ids from its counter whatever objects there are. -/
def array? (g : Program) (name : String) : Option RegisterArray := g.arrays.lookup? name

/-- The calculation called `name`. -/
def calculation? (g : Program) (name : String) : Option Calculation :=
  g.calculations.get? name

/-- The action of an id. -/
def action? (g : Program) (id : Int) : Option Action := g.actions.get? id

/-- The node of a pipeline called `name`. -/
def node? (g : Program) (pipeline name : String) : Option Node :=
  (g.pipeline? pipeline).bind (·.node? name)

/-- The first of some actions, by id, that is called `name`. -/
def actionNamed? (g : Program) (ids : List Int) (name : String) : Option Int :=
  ids.find? fun id => (g.action? id).any (·.name == name)

/-- The nodes of all pipelines. -/
def nodes (g : Program) : List Node := g.pipelines.objects.flatMap Pipeline.nodes

/-- The number of objects of a kind. -/
def count (g : Program) : ObjectKind → Nat
  | .pipeline => g.pipelines.size
  | .node => g.nodes.length
  | .conditional => g.nodes.countP fun n => n.conditional?.isSome
  | .flex => g.nodes.countP fun n => n.kind == .flex
  | .table => g.nodes.countP fun n => n.table?.isSome
  | .action => g.actions.size
  | .registerArray => g.arrays.size
  | .calculation => g.calculations.size

/-- The id that the next new object of a kind gets. -/
def nextId (g : Program) : ObjectKind → Int
  | .pipeline => g.pipelines.nextId
  | .node | .conditional | .flex => g.conditionalIds.next
  | .table => g.tableIds.next
  | .action => g.actions.nextId
  | .registerArray => g.arrays.nextId
  | .calculation => g.calculations.nextId

end Program

end LiveSwitch
