import LiveSwitch.Assoc
import LiveSwitch.Identity

/-!
# Object maps

The objects of one kind with unique names: pipelines, register arrays, calculations.  A
map lists its objects in the order of their ids, which is also the order in which a
document lists them.  Loaded objects bring their id along; an object inserted later gets
the next free one.  Once the counter has gone round, the next id may belong to an object,
which then has to leave.  Its name does not leave with it: it stays taken, and leads to
whatever object has the id.

## Main definitions

* `Named` — types whose values carry a name and an id.
* `ObjectMap` — the map, with its look-ups `get?` by the name of an object, `getById?` by its
  id and `lookup?` by any name that leads to it.
* `ObjectMap.insert`, `insertNew`, `modify`, `alter`, `remove` — the changes.
-/

namespace LiveSwitch

/-- Types whose values carry a name and an id. -/
class Named (α : Type) where
  identity : α → Identity

/-- The name of an object. -/
def nameOf {α : Type} [Named α] (a : α) : String := (Named.identity a).name

/-- The id of an object. -/
def idOf {α : Type} [Named α] (a : α) : Int := (Named.identity a).id

/-- Why an object cannot be added to a map. -/
inductive DuplicateError where
  | name (name : String)
  | id (id : Int)
  deriving DecidableEq, Repr

/-- The text of a refusal. -/
def DuplicateError.message : DuplicateError → String
  | name n => s!"Duplicate name '{n}'"
  | id n => s!"Duplicate id {n}"

/-- The objects of one kind, in the order of their ids, and the counter of the kind. -/
structure ObjectMap (α : Type) where
  objects : List α := []
  /-- The names whose objects have lost their ids to other objects, with these ids. -/
  strays : List (String × Int) := []
  ids : IdCounter := {}
  deriving Repr, Inhabited

namespace ObjectMap

variable {α : Type} [Named α]

/-- The map without objects. -/
def empty : ObjectMap α := {}

/-- The number of objects. -/
def size (m : ObjectMap α) : Nat := m.objects.length

/-- The object called `name`. -/
def get? (m : ObjectMap α) (name : String) : Option α :=
  m.objects.find? fun a => nameOf a == name

/-- The object with the id `id`. -/
def getById? (m : ObjectMap α) (id : Int) : Option α :=
  m.objects.find? fun a => idOf a == id

/-- The object that `name` leads to: the one called so, or the one that has its id by now. -/
def lookup? (m : ObjectMap α) (name : String) : Option α :=
  match m.strays.lookup name with
  | some id => m.getById? id
  | none => m.get? name

/-- Whether a name is taken. -/
def contains (m : ObjectMap α) (name : String) : Bool :=
  (m.strays.lookup name).isSome || (m.get? name).isSome

/-- The id that the next new object will get. -/
def nextId (m : ObjectMap α) : Int := m.ids.next

/-- The names in the order of the ids. -/
def names (m : ObjectMap α) : List String := m.objects.map nameOf

/-- Puts an object before the first one with a larger id. -/
def place (a : α) : List α → List α
  | [] => [a]
  | b :: bs => if idOf a < idOf b then a :: b :: bs else b :: place a bs

/-- Takes the object with an id out, if there is one, and leaves its name behind. -/
def vacate (m : ObjectMap α) (id : Int) : ObjectMap α :=
  { m with
    objects := m.objects.filter fun a => idOf a != id
    strays := ((m.getById? id).toList.map fun a => (nameOf a, id)) ++ m.strays }

/-- Adds an object that brings its id along. -/
def insert (m : ObjectMap α) (a : α) : Except DuplicateError (ObjectMap α) :=
  if m.contains (nameOf a) then .error (.name (nameOf a))
  else if (m.getById? (idOf a)).isSome then .error (.id (idOf a))
  else .ok { m with objects := place a m.objects, ids := m.ids.observe (idOf a) }

/-- Adds an object under the next free id, made from that id by `build`.  An object that has
the id leaves. -/
def insertNew (m : ObjectMap α) (name : String) (build : Int → α) :
    Except DuplicateError (ObjectMap α) :=
  if m.contains name then .error (.name name)
  else
    let m := m.vacate m.ids.next
    .ok { m with objects := place (build m.ids.next) m.objects, ids := m.ids.bump }

/-- Changes the object called `name`; the change keeps its name and id. -/
def modify (m : ObjectMap α) (name : String) (f : α → α) : ObjectMap α :=
  { m with objects := m.objects.map fun a => if nameOf a == name then f a else a }

/-- Changes the object that `name` leads to; the change keeps its name and id. -/
def alter (m : ObjectMap α) (name : String) (f : α → α) : ObjectMap α :=
  match m.lookup? name with
  | some a => m.modify (nameOf a) f
  | none => m

/-- Changes every object; the change keeps names and ids. -/
def modifyAll (m : ObjectMap α) (f : α → α) : ObjectMap α :=
  { m with objects := m.objects.map f }

/-- Gives a name up and takes the object that it leads to out. -/
def remove (m : ObjectMap α) (name : String) : ObjectMap α :=
  match m.strays.lookup name with
  | some id => { m with strays := Assoc.erase name m.strays }.vacate id
  | none => { m with objects := m.objects.filter fun a => nameOf a != name }

/-! ### Look-ups -/

omit [Named α] in
/-- Nothing is in the empty map. -/
@[simp] theorem objects_empty : (empty : ObjectMap α).objects = [] := rfl

/-- An object found by name is in the map and has that name. -/
theorem mem_of_get? {m : ObjectMap α} {name : String} {a : α} (h : m.get? name = some a) :
    a ∈ m.objects ∧ nameOf a = name :=
  ⟨List.mem_of_find?_eq_some h, by simpa using List.find?_some h⟩

/-- Where no name is a stray one, names lead to the objects that have them. -/
theorem lookup?_eq_get? {m : ObjectMap α} (h : m.strays = []) (name : String) :
    m.lookup? name = m.get? name := by
  rw [lookup?, h]
  rfl

/-- An object that a name leads to is in the map. -/
theorem mem_of_lookup? {m : ObjectMap α} {name : String} {a : α} (h : m.lookup? name = some a) :
    a ∈ m.objects := by
  unfold lookup? at h
  split at h
  · exact List.mem_of_find?_eq_some h
  · exact (mem_of_get? h).1

/-- Placing an object adds it and nothing else. -/
theorem mem_place {a b : α} {l : List α} : b ∈ place a l ↔ b = a ∨ b ∈ l := by
  induction l with
  | nil => simp [place]
  | cons c cs ih =>
    simp only [place]
    split
    · simp
    · simp only [List.mem_cons, ih]
      constructor
      · rintro (h | h | h) <;> simp [h]
      · rintro (h | h | h) <;> simp [h]

end ObjectMap

end LiveSwitch
