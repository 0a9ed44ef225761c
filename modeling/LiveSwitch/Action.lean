import LiveSwitch.Document.Record
import LiveSwitch.Expr.Decode
import LiveSwitch.ObjectMap

/-!
# Actions

An action is a list of primitives that a table runs on a packet.  Several actions may have
the same name, one for each table that uses it; their ids tell them apart.

## Main definitions

* `Primitive` — the primitives, with `register?` and `calculation?`.
* `Primitive.decode` — a primitive as a document gives it.
* `Action` — an action, with `ofRecord` and `toRecord`.
* `ActionTable` — all actions, in the order of their ids.
-/

namespace LiveSwitch

open Json

/-- A step of an action. -/
inductive Primitive where
  | assign (target : String) (value : Expr)
  | add (target : String) (value : Expr)
  | subtract (target : String) (value : Expr)
  | registerRead (target : String) (array : String) (index : Expr)
  | registerWrite (array : String) (index value : Expr)
  /-- Sets the target to the base plus the hash modulo the size. -/
  | hashOffset (target : String) (base : Expr) (calculation : String) (size : Expr)
  | drop
  | skip
  deriving DecidableEq, Repr

namespace Primitive

/-- The register array that a primitive uses. -/
def register? : Primitive → Option String
  | registerRead _ array _ | registerWrite array _ _ => some array
  | _ => none

/-- The calculation that a primitive uses. -/
def calculation? : Primitive → Option String
  | hashOffset _ _ calculation _ => some calculation
  | _ => none

/-- The field that a primitive sets. -/
def target? : Primitive → Option String
  | assign target _ | add target _ | subtract target _ | registerRead target _ _
  | hashOffset target _ _ _ => some target
  | registerWrite _ _ _ | drop | skip => none

/-- A primitive as a document gives it, on its way to being read. -/
structure Source where
  action : String
  op : String
  parameters : List Value

namespace Source

/-- A parameter by its position. -/
def parameter (s : Source) (i : Nat) : Except LoadError Value :=
  match s.parameters[i]? with
  | some v => .ok v
  | none => .error (.missingParameter s.action s.op i)

/-- A parameter that is a field. -/
def field (s : Source) (i : Nat) : Except LoadError String := do
  fieldName (((← s.parameter i).field? "value").getD .null)

/-- A parameter that is an expression. -/
def expr (s : Source) (i : Nat) : Except LoadError Expr := do
  Expr.decode (← s.parameter i)

/-- A parameter that names an object of a kind. -/
def named (s : Source) (i : Nat) (kind : ObjectKind) : Except LoadError String := do
  let v ← s.parameter i
  match (v.field? "type").bind Value.string?, (v.field? "value").bind Value.string? with
  | some t, some name => if t = kind.text then return name else throw (.badParameter kind v)
  | _, _ => throw (.badParameter kind v)

end Source

/-- Reads a primitive of an action. -/
def decode (action : String) (v : Value) : Except LoadError Primitive :=
  let s : Source := {
    action
    op := ((v.field? "op").bind Value.string?).getD ""
    parameters := ((v.field? "parameters").bind Value.items?).getD [] }
  match s.op with
  | "assign" | "modify_field" => do return assign (← s.field 0) (← s.expr 1)
  | "add_to_field" => do return add (← s.field 0) (← s.expr 1)
  | "subtract_from_field" => do return subtract (← s.field 0) (← s.expr 1)
  | "register_read" => do
    return registerRead (← s.field 0) (← s.named 1 .registerArray) (← s.expr 2)
  | "register_write" => do
    return registerWrite (← s.named 0 .registerArray) (← s.expr 1) (← s.expr 2)
  | "modify_field_with_hash_based_offset" => do
    return hashOffset (← s.field 0) (← s.expr 1) (← s.named 2 .calculation) (← s.expr 3)
  | "mark_to_drop" | "drop" => return drop
  | "no_op" => return skip
  | op => throw (.unsupportedPrimitive action op)

end Primitive

/-- An action. -/
structure Action where
  identity : Identity
  parameters : List Parameter
  primitives : List Primitive
  /-- The primitives as the document gives them. -/
  primitivesJson : List Value
  extra : Object
  deriving DecidableEq, Repr

instance : Named Action := ⟨Action.identity⟩

namespace Action

/-- The action of a record. -/
def ofRecord (r : ActionRecord) : Except LoadError Action := do
  let primitives ← r.primitives.mapM (Primitive.decode r.identity.name)
  return {
    identity := r.identity
    parameters := r.parameters
    primitives
    primitivesJson := r.primitives
    extra := r.extra }

/-- The record of an action. -/
def toRecord (a : Action) : ActionRecord :=
  { identity := a.identity, parameters := a.parameters, primitives := a.primitivesJson,
    extra := a.extra }

/-- The action under another id. -/
def withId (a : Action) (id : Int) : Action :=
  { a with identity := { a.identity with id } }

/-- The name of an action. -/
def name (a : Action) : String := a.identity.name

/-- The calculations that the primitives use, in order. -/
def calculations (a : Action) : List String := a.primitives.filterMap Primitive.calculation?

end Action

/-- The actions of a program, in the order of their ids, and their counter. -/
structure ActionTable where
  actions : List Action := []
  ids : IdCounter := {}
  deriving DecidableEq, Repr, Inhabited

namespace ActionTable

/-- The number of actions. -/
def size (t : ActionTable) : Nat := t.actions.length

/-- The action of an id. -/
def get? (t : ActionTable) (id : Int) : Option Action :=
  t.actions.find? fun a => a.identity.id == id

/-- The action of a name with the lowest id. -/
def findByName? (t : ActionTable) (name : String) : Option Action :=
  t.actions.find? fun a => a.name == name

/-- The id that the next copy will get. -/
def nextId (t : ActionTable) : Int := t.ids.next

/-- Adds an action that brings its id along. -/
def insert (t : ActionTable) (a : Action) : Except LoadError ActionTable :=
  if (t.get? a.identity.id).isSome then .error (.duplicateId .action a.identity.id)
  else .ok { actions := ObjectMap.place a t.actions, ids := t.ids.observe a.identity.id }

/-- Adds a copy of an action under the next free id, in the place of an action that has it. -/
def insertCopy (t : ActionTable) (a : Action) : ActionTable :=
  { actions :=
      ObjectMap.place (a.withId t.ids.next) (t.actions.filter fun b => idOf b != t.ids.next)
    ids := t.ids.bump }

end ActionTable

end LiveSwitch
