import LiveSwitch.Document.Record
import LiveSwitch.Expr.Decode
import LiveSwitch.ObjectMap

/-!
# Nodes of a pipeline

A node is a conditional or a table.  A conditional has an edge for each truth value; a
conditional that is marked flex is a place held open for later edits, and without a
condition it always follows its true edge.  A table looks up a key made of packet fields,
runs the action it finds there and has an edge for each outcome.

An edge is null or refers to a node by slot and generation, so that an edge to a deleted
node is told apart from an edge to the node that has taken over its slot.

## Main definitions

* `NodeRef`, `Edge` — references to nodes.
* `Branch`, `Condition`, `Conditional` — conditionals.
* `TableSlot`, `TableEntry`, `DefaultEntry`, `Table` — tables.
* `Node` — the nodes.
-/

namespace LiveSwitch

open Json

/-- A reference to the node that a slot held in one of its generations. -/
structure NodeRef where
  slot : Nat
  generation : UInt32
  deriving DecidableEq, Repr, Inhabited

/-- An edge; `none` ends the pipeline. -/
abbrev Edge := Option NodeRef

/-! ### Conditionals -/

/-- The two edges of a conditional. -/
inductive Branch where
  | onTrue
  | onFalse
  deriving DecidableEq, Repr, Inhabited

namespace Branch

/-- The name of a branch in documents and plans. -/
def text : Branch → String
  | onTrue => "true_next"
  | onFalse => "false_next"

/-- The branch of a name. -/
def ofText? : String → Option Branch
  | "true_next" => some onTrue
  | "false_next" => some onFalse
  | _ => none

/-- The branch of a truth value. -/
def ofTruth (b : Bool) : Branch := if b then onTrue else onFalse

/-- A branch is read from its own name. -/
theorem ofText?_text (b : Branch) : ofText? b.text = some b := by
  cases b <;> rfl

end Branch

/-- A condition, also as the document gives it. -/
structure Condition where
  json : Value
  expr : Expr
  deriving DecidableEq, Repr, Inhabited

namespace Condition

/-- Reads a condition. -/
def decode (v : Value) : Except LoadError Condition := do
  return { json := v, expr := ← Expr.decode v }

/-- The condition that always holds. -/
def always : Condition :=
  { json := .object [("type", .string "bool"), ("value", .bool true)], expr := .const 1 }

end Condition

/-- A conditional. -/
structure Conditional where
  identity : Identity
  condition? : Option Condition
  trueNext : Edge := none
  falseNext : Edge := none
  /-- Whether the node is a place held open for later edits. -/
  flex : Bool := false
  extra : Object := []
  deriving DecidableEq, Repr, Inhabited

namespace Conditional

/-- The edge of a branch. -/
def next (c : Conditional) : Branch → Edge
  | .onTrue => c.trueNext
  | .onFalse => c.falseNext

/-- Sets the edge of a branch. -/
def setNext (c : Conditional) (b : Branch) (e : Edge) : Conditional :=
  match b with
  | .onTrue => { c with trueNext := e }
  | .onFalse => { c with falseNext := e }

/-- The branch that a packet takes. -/
def evaluate (c : Conditional) (p : Packet) : Except RunError Branch :=
  match c.condition? with
  | some condition => do return .ofTruth (← condition.expr.test p [])
  | none => .ok .onTrue

/-- The definition of a conditional under another name and id, without edges. -/
def instantiate (c : Conditional) (name : String) (id : Int) : Conditional :=
  { identity := { name, id, source? := c.identity.source? }, condition? := c.condition?,
    extra := c.extra }

end Conditional

/-! ### Tables -/

/-- The key of the hit edge among the next nodes of a table. -/
def hitKey : String := "__HIT__"

/-- The key of the miss edge among the next nodes of a table. -/
def missKey : String := "__MISS__"

/-- An edge of a table. -/
inductive TableSlot where
  | baseDefault
  | hit
  | miss
  /-- The edge of an action, by the name of the action. -/
  | action (name : String)
  deriving DecidableEq, Repr, Inhabited

namespace TableSlot

/-- The text of a slot in a plan. -/
def text : TableSlot → String
  | baseDefault => "base_default_next"
  | hit => hitKey
  | miss => missKey
  | action name => name

/-- The slot of a text. -/
def ofText (s : String) : TableSlot :=
  if s = "base_default_next" then baseDefault
  else if s = hitKey then hit
  else if s = missKey then miss
  else action s

end TableSlot

/-- An action with its data, as an entry of a table. -/
structure TableEntry where
  actionId : Int
  data : List UInt64
  deriving DecidableEq, Repr, Inhabited

/-- The entry that a table runs on a miss. -/
structure DefaultEntry where
  actionId : Int
  data : List UInt64
  extra : Object := []
  deriving DecidableEq, Repr, Inhabited

namespace DefaultEntry

/-- Reads one word of action data. -/
def decodeWord (table : String) (s : String) : Except LoadError UInt64 :=
  match Constant.parse? s with
  | some w => .ok w
  | none => .error (.badActionData table s)

/-- The default entry of a record. -/
def ofRecord (table : String) (r : DefaultRecord) : Except LoadError DefaultEntry := do
  return {
    actionId := r.actionId
    data := ← r.data.mapM (decodeWord table)
    extra := r.extra }

/-- The record of a default entry. -/
def toRecord (d : DefaultEntry) : DefaultRecord :=
  { actionId := d.actionId, data := d.data.map Constant.text, extra := d.extra }

end DefaultEntry

/-- Why an entry of a table cannot be changed. -/
inductive EntryError where
  | keyArity (table : String) (expected got : Nat)
  | actionNotInTable (table : String) (actionId : Int)
  | noSuchEntry (table : String) (key : List UInt64)
  deriving DecidableEq, Repr

/-- The text of a refusal. -/
def EntryError.message : EntryError → String
  | keyArity table expected got =>
    s!"Table '{table}' expects a key of {expected} fields, got {got}"
  | actionNotInTable table id => s!"Action {id} is not an action of table '{table}'"
  | noSuchEntry table key =>
    let words := ", ".intercalate (key.map fun w => toString w.toNat)
    s!"Table '{table}' has no entry for key [{words}]"

/-- A table. -/
structure Table where
  identity : Identity
  matchType : String
  /-- The fields that make up the key. -/
  keyFields : List String
  /-- The key as the document gives it. -/
  keyJson : List Value
  actionIds : List Int
  /-- The edges of the actions, in the order of the action ids. -/
  nextByAction : List (Int × Edge) := []
  /-- The hit edge; a table without one follows the edge of the action. -/
  hitNext? : Option Edge := none
  /-- The miss edge; a table without one follows the base edge. -/
  missNext? : Option Edge := none
  baseNext : Edge := none
  default? : Option DefaultEntry := none
  /-- The entries, by their keys. -/
  entries : List (List UInt64 × TableEntry) := []
  extra : Object := []
  deriving DecidableEq, Repr, Inhabited

namespace Table

/-- The name of a table. -/
def name (t : Table) : String := t.identity.name

/-- The parts of a full field name: before and after its first point. -/
def targetOf (field : String) : List String :=
  let cs := field.toList
  let header := cs.takeWhile (· != '.')
  match cs.dropWhile (· != '.') with
  | [] => [field]
  | _ :: rest => [String.ofList header, String.ofList rest]

/-- A table with the given key and actions, without entries and edges. -/
def create (identity : Identity) (keyFields : List String) (actionIds : List Int) : Table :=
  { identity
    matchType := "exact"
    keyFields
    keyJson := keyFields.map fun f => .object
      [("match_type", .string "exact"), ("name", .string f),
        ("target", .array ((targetOf f).map .string))]
    actionIds
    nextByAction := actionIds.foldl (fun m id => Assoc.insert id none m) [] }

/-- The field that a part of a key names. -/
def decodeKey (table : String) (v : Value) : Except LoadError String :=
  match v.field? "target" with
  | some target => fieldName target
  | none => .error (.keyWithoutTarget table v)

/-- The table of a record, without edges. -/
def ofRecord (r : TableRecord) : Except LoadError Table := do
  let keyFields ← r.key.mapM (decodeKey r.identity.name)
  let default? ← r.default?.mapM (DefaultEntry.ofRecord r.identity.name)
  return {
    identity := r.identity
    matchType := r.matchType
    keyFields
    keyJson := r.key
    actionIds := r.actionIds
    default?
    extra := r.extra }

/-- The id that takes the place of `id` when the actions `old` are replaced by `new`; of
several places the last counts. -/
def renumber (old new : List Int) (id : Int) : Int :=
  ((old.zip new).reverse.lookup id).getD id

/-- The definition of a table under another name and id, with its actions replaced one by
one.  Every edge is null, and hit and miss edges are there if they were. -/
def instantiate (t : Table) (name : String) (id : Int) (actionIds : List Int) : Table :=
  { identity := { name, id, source? := t.identity.source? }
    matchType := t.matchType
    keyFields := t.keyFields
    keyJson := t.keyJson
    actionIds
    nextByAction := actionIds.foldl (fun m id => Assoc.insert id none m) []
    hitNext? := t.hitNext?.map fun _ => none
    missNext? := t.missNext?.map fun _ => none
    default? := t.default?.map fun d =>
      { d with actionId := renumber t.actionIds actionIds d.actionId }
    extra := t.extra }

/-- Whether hits and misses have edges of their own. -/
def isSelective (t : Table) : Bool := t.hitNext?.isSome || t.missNext?.isSome

/-- The edge of an action. -/
def nextOf? (t : Table) (actionId : Int) : Option Edge := t.nextByAction.lookup actionId

/-- Sets the edge of an action. -/
def setActionNext (t : Table) (actionId : Int) (e : Edge) : Table :=
  { t with nextByAction := Assoc.insert actionId e t.nextByAction }

/-- All edges: those of the actions, the hit edge, the miss edge and the base edge. -/
def edges (t : Table) : List Edge :=
  t.nextByAction.map Prod.snd ++ t.hitNext?.toList ++ t.missNext?.toList ++ [t.baseNext]

/-- The edge that a packet follows after a hit. -/
def afterHit (t : Table) (actionId : Int) : Edge :=
  match t.hitNext? with
  | some e => e
  | none => (t.nextOf? actionId).getD t.baseNext

/-- The edge that a packet follows after a miss. -/
def afterMiss (t : Table) : Edge := t.missNext?.getD t.baseNext

/-! ### Entries -/

/-- The key of a packet. -/
def keyOf (t : Table) (p : Packet) : List UInt64 := t.keyFields.map p.field

/-- The entry of a key. -/
def entry? (t : Table) (key : List UInt64) : Option TableEntry := t.entries.lookup key

/-- Checks that a key has as many parts as the table has key fields. -/
def checkKey (t : Table) (key : List UInt64) : Except EntryError Unit :=
  if key.length = t.keyFields.length then .ok ()
  else .error (.keyArity t.name t.keyFields.length key.length)

/-- Checks that an action is one of the table's. -/
def checkAction (t : Table) (actionId : Int) : Except EntryError Unit :=
  if t.actionIds.contains actionId then .ok ()
  else .error (.actionNotInTable t.name actionId)

/-- Adds an entry or replaces the one of its key. -/
def addEntry (t : Table) (key : List UInt64) (e : TableEntry) : Except EntryError Table := do
  t.checkKey key
  t.checkAction e.actionId
  return { t with entries := Assoc.set key e t.entries }

/-- Deletes the entry of a key. -/
def deleteEntry (t : Table) (key : List UInt64) : Except EntryError Table := do
  t.checkKey key
  if (t.entry? key).isSome then return { t with entries := Assoc.erase key t.entries }
  else throw (.noSuchEntry t.name key)

/-- Sets the default entry; what the document says beyond action and data stays. -/
def setDefault (t : Table) (e : TableEntry) : Except EntryError Table := do
  t.checkAction e.actionId
  let extra := (t.default?.map DefaultEntry.extra).getD []
  return { t with default? := some { actionId := e.actionId, data := e.data, extra } }

end Table

/-! ### Nodes -/

/-- A node of a pipeline. -/
inductive Node where
  | conditional (c : Conditional)
  | table (t : Table)
  deriving DecidableEq, Repr, Inhabited

namespace Node

/-- The identity of a node. -/
def identity : Node → Identity
  | conditional c => c.identity
  | table t => t.identity

/-- The kind of a node. -/
def kind : Node → ObjectKind
  | conditional c => if c.flex then .flex else .conditional
  | table _ => .table

/-- The name of a node. -/
def name (n : Node) : String := n.identity.name

/-- The conditional that a node is. -/
def conditional? : Node → Option Conditional
  | conditional c => some c
  | table _ => none

/-- The table that a node is. -/
def table? : Node → Option Table
  | table t => some t
  | conditional _ => none

/-- Changes a node that is a conditional. -/
def mapConditional (f : Conditional → Conditional) : Node → Node
  | conditional c => conditional (f c)
  | table t => table t

/-- Changes a node that is a table. -/
def mapTable (f : Table → Table) : Node → Node
  | table t => table (f t)
  | conditional c => conditional c

end Node

instance : Named Node := ⟨Node.identity⟩

end LiveSwitch
