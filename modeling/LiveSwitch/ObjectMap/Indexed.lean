import LiveSwitch.Assoc
import LiveSwitch.ObjectMap

/-!
# Object maps with two indexes

Object maps once more, as they are kept: the objects lie under their ids, a second index leads
from the names to the ids, and a counter hands out ids.  An operation changes the three parts one
after the other, and a look-up by name goes through both indexes.  Nothing keeps the counter from
going round: an id that is handed out then may lead more than one name to its object.

## Main definitions

* `IndexedMap` — the map, with `get?`, `getById?`, `objects` and `nextId`.
* `Indexing` — computations that change such a map.
* `IndexedMap.insert`, `insertNew`, `remove`, `modify`, `modifyAll` — the operations in place.
-/

namespace LiveSwitch

/-- The objects of one kind under their ids, the ids under the names, and the counter. -/
structure IndexedMap (α : Type) where
  /-- In the order of the ids. -/
  byId : List (Int × α) := []
  byName : List (String × Int) := []
  ids : IdCounter := {}
  deriving Repr, Inhabited

/-- A computation that changes a map.  What it has changed by the time it is refused stays
changed. -/
abbrev Indexing (α : Type) := EStateM DuplicateError (IndexedMap α)

namespace IndexedMap

variable {α : Type}

/-! ### Look-ups -/

/-- The number of objects. -/
def size (m : IndexedMap α) : Nat := m.byId.length

/-- Whether an object is called `name`. -/
def contains (m : IndexedMap α) (name : String) : Bool := (m.byName.lookup name).isSome

/-- The object with the id `id`. -/
def getById? (m : IndexedMap α) (id : Int) : Option α := m.byId.lookup id

/-- The object called `name`: its id is looked up first. -/
def get? (m : IndexedMap α) (name : String) : Option α := (m.byName.lookup name).bind m.getById?

/-- The objects in the order of their ids. -/
def objects (m : IndexedMap α) : List α := m.byId.map Prod.snd

/-- The names in the order of the ids. -/
def names [Named α] (m : IndexedMap α) : List String := m.objects.map nameOf

/-- The id that the next new object will get. -/
def nextId (m : IndexedMap α) : Int := m.ids.next

/-! ### Changes of one part -/

/-- Moves the counter beyond an id that is in use. -/
def observe (id : Int) : Indexing α Unit := modify fun m => { m with ids := m.ids.observe id }

/-- Takes the next free id. -/
def allocate : Indexing α Int := modifyGet fun m => (m.ids.next, { m with ids := m.ids.bump })

/-- Enters an id under a name. -/
def enterName (name : String) (id : Int) : Indexing α Unit :=
  modify fun m => { m with byName := Assoc.set name id m.byName }

/-- Enters an object under an id. -/
def enterObject (id : Int) (a : α) : Indexing α Unit :=
  modify fun m => { m with byId := Assoc.insert id a m.byId }

/-- Takes a name out and gives its id. -/
def takeName (name : String) : Indexing α (Option Int) :=
  modifyGet fun m => (m.byName.lookup name, { m with byName := Assoc.erase name m.byName })

/-- Takes an id out and gives its object. -/
def takeObject (id : Int) : Indexing α (Option α) :=
  modifyGet fun m => (m.byId.lookup id, { m with byId := Assoc.erase id m.byId })

/-- Changes the object under an id and gives it as it is then. -/
def editObject (id : Int) (f : α → α) : Indexing α (Option α) :=
  modifyGet fun m => ((m.byId.lookup id).map f,
    { m with byId := m.byId.map fun (key, a) => (key, if key == id then f a else a) })

/-! ### Operations -/

/-- Adds an object that brings its id along, and gives the id. -/
def insert [Named α] (a : α) : Indexing α Int := do
  let id := idOf a
  if (← get).contains (nameOf a) then throw (.name (nameOf a))
  if ((← get).getById? id).isSome then throw (.id id)
  observe id
  enterName (nameOf a) id
  enterObject id a
  return id

/-- Adds an object under the next free id, made from that id by `build`, and gives the id. -/
def insertNew (name : String) (build : Int → α) : Indexing α Int := do
  if (← get).contains name then throw (.name name)
  let id ← allocate
  let a := build id
  enterName name id
  enterObject id a
  return id

/-- Removes the object called `name` and gives it. -/
def remove (name : String) : Indexing α (Option α) := do
  match ← takeName name with
  | none => return none
  | some id => takeObject id

/-- Changes the object called `name` and gives it as it is then; the change keeps its name and
id. -/
def modify (name : String) (f : α → α) : Indexing α (Option α) := do
  match (← get).byName.lookup name with
  | none => return none
  | some id => editObject id f

/-- Changes every object; the change keeps names and ids. -/
def modifyAll (f : α → α) : Indexing α Unit :=
  modifyGet fun m => ((), { m with byId := m.byId.map fun (id, a) => (id, f a) })

end IndexedMap

end LiveSwitch
