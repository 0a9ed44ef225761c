import LiveSwitch.Pipeline.Basic

/-!
# Pipelines changed in place

The changes of a pipeline once more, as they are carried out: the names, the free slots and the
slots are changed one after the other.  A name that is taken out stays out when its slot is not
there, and a free slot is taken off its list before it is filled.

## Main definitions

* `Seating` — computations that change the slots of a pipeline.
* `Pipeline.InPlace.insert`, `remove`, `edit` — the changes in place.
-/

namespace LiveSwitch

/-- Why a node is not given a slot. -/
inductive SeatingError where
  | duplicate (e : DuplicateError)
  /-- A slot that is listed as free is not there. -/
  | noSlot (slot : Nat)
  deriving DecidableEq, Repr

/-- A computation that changes the slots of a pipeline.  What it has changed by the time it is
refused stays changed. -/
abbrev Seating := EStateM SeatingError Pipeline

namespace Pipeline.InPlace

/-! ### Changes of one part -/

/-- Enters a reference under a name. -/
def enterName (name : String) (r : NodeRef) : Seating Unit :=
  modify fun p => { p with byName := Assoc.set name r p.byName }

/-- Takes a name out and gives its reference. -/
def takeName (name : String) : Seating (Option NodeRef) :=
  modifyGet fun p => (p.find? name, { p with byName := Assoc.erase name p.byName })

/-- Lists a slot as free. -/
def listFree (i : Nat) : Seating Unit := modify fun p => { p with free := i :: p.free }

/-- Takes the slot freed last off the list. -/
def takeFree : Seating (Option Nat) :=
  modifyGet fun p => (p.free.head?, { p with free := p.free.tail })

/-- Adds a slot in its first generation, with a node in it, and gives the reference. -/
def addSlot (n : Node) : Seating NodeRef :=
  modifyGet fun p =>
    (⟨p.slots.length, 0⟩, { p with slots := p.slots ++ [{ node? := some n }] })

/-- Puts a node into a slot. -/
def putNode (i : Nat) (n : Node) : Seating Unit :=
  modify fun p => { p with slots := p.slots.modify i fun s => { s with node? := some n } }

/-- Takes the node out of a slot and gives it. -/
def takeNode (i : Nat) : Seating (Option Node) :=
  modifyGet fun p => (p.slots[i]?.bind Slot.node?,
    { p with slots := p.slots.modify i fun s => { s with node? := none } })

/-- Moves a slot to its next generation; after the last one comes the first. -/
def nextGeneration (i : Nat) : Seating Unit :=
  modify fun p =>
    { p with slots := p.slots.modify i fun s => { s with generation := s.generation + 1 } }

/-- Puts a node into a slot that has to be there and gives the reference. -/
def fillSlot (i : Nat) (n : Node) : Seating NodeRef := do
  match (← get).slots[i]? with
  | none => throw (.noSlot i)
  | some s =>
    putNode i n
    return ⟨i, s.generation⟩

/-- Puts a node into the slot freed last, or into a new one, and gives the reference. -/
def place (n : Node) : Seating NodeRef := do
  match ← takeFree with
  | some i => fillSlot i n
  | none => addSlot n

/-! ### Operations -/

/-- Adds a node under its name, which has to be free, and gives its reference. -/
def insert (n : Node) : Seating NodeRef := do
  if ((← get).find? n.name).isSome then throw (.duplicate (.name n.name))
  let r ← place n
  enterName n.name r
  return r

/-- Deletes the node called `name` and gives it.  Edges to it no longer resolve. -/
def remove (name : String) : Seating (Option Node) := do
  match ← takeName name with
  | none => return none
  | some r =>
    if (← get).slots.length ≤ r.slot then return none
    nextGeneration r.slot
    listFree r.slot
    takeNode r.slot

/-- Changes the node called `name` and gives it as it is then; the change keeps its name. -/
def edit (name : String) (f : Node → Node) : Seating (Option Node) := do
  let p ← get
  match p.find? name with
  | none => return none
  | some r =>
    match p.resolve? r with
    | none => return none
    | some n =>
      putNode r.slot (f n)
      return some (f n)

end Pipeline.InPlace

end LiveSwitch
