import LiveSwitch.Pipeline.Node

/-!
# Pipelines

A pipeline is a graph of nodes.  Its nodes live in slots; a node that is deleted leaves
its slot to a later one, and the slot's generation moves on, so an edge to the deleted
node no longer resolves.  Slots are taken over last freed first.

## Main definitions

* `Slot`, `Pipeline` — the graph.
* `Pipeline.insertNode`, `Pipeline.removeNode` — adding and deleting nodes.
* `Pipeline.find?`, `Pipeline.resolve?`, `Pipeline.node?` — from names to references, from
  references to nodes, from names to nodes.
* `Pipeline.nodes`, `Pipeline.conditionals`, `Pipeline.tables` — the live nodes.
-/

namespace LiveSwitch

open Json

/-- A place for a node. -/
structure Slot where
  /-- How many nodes the slot has lost. -/
  generation : UInt32 := 0
  node? : Option Node := none
  deriving DecidableEq, Repr, Inhabited

/-- A graph of nodes. -/
structure Pipeline where
  identity : Identity
  /-- The edge to the first node. -/
  init : Edge := none
  slots : List Slot := []
  /-- The slots without a node, the one freed last in front. -/
  free : List Nat := []
  /-- The references of the live nodes, by name. -/
  byName : List (String × NodeRef) := []
  extra : Object := []
  deriving DecidableEq, Repr, Inhabited

instance : Named Pipeline := ⟨Pipeline.identity⟩

namespace Pipeline

/-- The name of a pipeline. -/
def name (p : Pipeline) : String := p.identity.name

/-- The reference of the node called `name`. -/
def find? (p : Pipeline) (name : String) : Option NodeRef := p.byName.lookup name

/-- The node that a reference stands for, as long as it is there. -/
def resolve? (p : Pipeline) (r : NodeRef) : Option Node :=
  match p.slots[r.slot]? with
  | some s => if s.generation = r.generation then s.node? else none
  | none => none

/-- The node called `name`. -/
def node? (p : Pipeline) (name : String) : Option Node := (p.find? name).bind p.resolve?

/-- The conditional called `name`. -/
def conditional? (p : Pipeline) (name : String) : Option Conditional :=
  (p.node? name).bind Node.conditional?

/-- The table called `name`. -/
def table? (p : Pipeline) (name : String) : Option Table := (p.node? name).bind Node.table?

/-- The name of the node that an edge leads to; null and stale edges have none. -/
def nodeName? (p : Pipeline) (e : Edge) : Option String :=
  (e.bind p.resolve?).map Node.name

/-- The number of live nodes. -/
def nodeCount (p : Pipeline) : Nat := p.byName.length

/-- The live nodes in the order of their slots. -/
def nodes (p : Pipeline) : List Node := p.slots.filterMap Slot.node?

/-- Sorts objects by id; objects with one id stay in their order. -/
def sortById {α : Type} [Named α] (l : List α) : List α :=
  l.mergeSort fun a b => idOf a ≤ idOf b

instance : Named Conditional := ⟨Conditional.identity⟩

instance : Named Table := ⟨Table.identity⟩

/-- The conditionals, flex ones included, in the order of their ids. -/
def conditionals (p : Pipeline) : List Conditional :=
  sortById (p.nodes.filterMap Node.conditional?)

/-- The tables in the order of their ids. -/
def tables (p : Pipeline) : List Table := sortById (p.nodes.filterMap Node.table?)

/-- Adds a node, in the slot freed last or in a new one, and gives its reference.
Conditionals and tables share their names. -/
def insertNode (p : Pipeline) (n : Node) : Except DuplicateError (NodeRef × Pipeline) :=
  if (p.find? n.name).isSome then .error (.name n.name)
  else
    match p.free with
    | [] =>
      let r : NodeRef := ⟨p.slots.length, 0⟩
      .ok (r, { p with
        slots := p.slots ++ [{ node? := some n }]
        byName := (n.name, r) :: p.byName })
    | i :: free =>
      let r : NodeRef := ⟨i, (p.slots[i]?.getD {}).generation⟩
      .ok (r, { p with
        slots := p.slots.modify i fun s => { s with node? := some n }
        free
        byName := (n.name, r) :: p.byName })

/-- Deletes the node called `name`.  Edges to it no longer resolve. -/
def removeNode (p : Pipeline) (name : String) : Pipeline :=
  match p.find? name with
  | none => p
  | some r => { p with
      slots := p.slots.modify r.slot fun s => ⟨s.generation + 1, none⟩
      free := r.slot :: p.free
      byName := Assoc.erase name p.byName }

/-- Changes the node called `name`; the change keeps its name and id. -/
def modifyNode (p : Pipeline) (name : String) (f : Node → Node) : Pipeline :=
  match p.find? name with
  | none => p
  | some r => { p with
      slots := p.slots.modify r.slot fun s =>
        if s.generation = r.generation then { s with node? := s.node?.map f } else s }

/-- Changes the conditional called `name`. -/
def modifyConditional (p : Pipeline) (name : String) (f : Conditional → Conditional) :
    Pipeline :=
  p.modifyNode name (Node.mapConditional f)

/-- Changes the table called `name`. -/
def modifyTable (p : Pipeline) (name : String) (f : Table → Table) : Pipeline :=
  p.modifyNode name (Node.mapTable f)

end Pipeline

end LiveSwitch
