import LiveSwitch.Json.Decode

/-!
# Identity of objects

Every object of a program has a name, an id and, when it came from a compiler, the place
in the source text it was made from.  Ids are signed integers of 32 bits and come from a
counter for each kind of object: a loaded id moves the counter beyond it.  After the largest
id the counter goes on with the smallest one, so that an id is handed out at most once only
as long as the ids stay below the largest.

## Main definitions

* `SourceInfo`, `Identity` — what identifies an object.
* `ObjectKind` — the kinds of objects, with their names in documents and messages.
* `minId`, `maxId` — the smallest and the largest id.
* `IdCounter` — the counter of one kind.

## Main results

* `IdCounter.le_observe`, `IdCounter.lt_observe` — an observed id below the largest one lies
  below the counter, which does not go back then.
-/

namespace LiveSwitch

open Json

/-- The place in a source text that an object was compiled from. -/
structure SourceInfo where
  filename : String
  line : Nat
  column : Nat
  fragment : String
  deriving DecidableEq, Repr, Inhabited

namespace SourceInfo

/-- Reads a place; every field may be missing. -/
def decode : Decoder SourceInfo := fun v => do
  let o ← Decode.positional ["filename", "line", "column", "source_fragment"] v
  return {
    filename := ← Decode.withDefault o "filename" Decode.text ""
    line := ← Decode.withDefault o "line" (Decode.natBelow UInt32.size) 0
    column := ← Decode.withDefault o "column" (Decode.natBelow UInt32.size) 0
    fragment := ← Decode.withDefault o "source_fragment" Decode.text "" }

/-- Writes a place with all its fields. -/
def encode (s : SourceInfo) : Value :=
  .object [("column", .ofNat s.column), ("filename", .string s.filename),
    ("line", .ofNat s.line), ("source_fragment", .string s.fragment)]

end SourceInfo

/-- What identifies an object. -/
structure Identity where
  name : String
  /-- The id, unique within the kind of the object. -/
  id : Int
  source? : Option SourceInfo := none
  deriving DecidableEq, Repr, Inhabited

namespace Identity

/-- The fields that hold an identity. -/
def keys : List String := ["name", "id", "source_info"]

/-- Reads an id: a signed integer of 32 bits. -/
def decodeId : Decoder Int := Decode.intBetween (-0x80000000) 0x80000000

/-- Reads an identity from the fields of a record. -/
def decode (o : Object) : Option Identity := do
  return {
    name := ← Decode.required o "name" Decode.text
    id := ← Decode.required o "id" decodeId
    source? := ← Decode.optional o "source_info" SourceInfo.decode }

/-- Writes an identity as fields of a record. -/
def encode (i : Identity) : List (String × Value) :=
  [("name", .string i.name), ("id", .ofInt i.id)] ++
    (i.source?.map fun s => ("source_info", s.encode)).toList

end Identity

/-- The kinds of objects that a program holds. -/
inductive ObjectKind where
  | pipeline
  /-- A node of a pipeline, of whatever kind. -/
  | node
  | conditional
  | flex
  | table
  | action
  | registerArray
  | calculation
  deriving DecidableEq, Repr, Inhabited

namespace ObjectKind

/-- The name of a kind in documents and messages. -/
def text : ObjectKind → String
  | pipeline => "pipeline"
  | node => "node"
  | conditional => "conditional"
  | flex => "flex"
  | table => "table"
  | action => "action"
  | registerArray => "register_array"
  | calculation => "calculation"

/-- All kinds, pipelines first. -/
def all : List ObjectKind :=
  [pipeline, node, conditional, flex, table, action, registerArray, calculation]

end ObjectKind

/-- The smallest id. -/
def minId : Int := -0x80000000

/-- The largest id. -/
def maxId : Int := 0x7fffffff

/-- The counter from which objects of one kind get their ids. -/
structure IdCounter where
  /-- The next free id. -/
  next : Int := 0
  deriving DecidableEq, Repr, Inhabited

namespace IdCounter

/-- What the counter has after an id: the next integer of 32 bits, which wraps around. -/
def following (id : Int) : Int := if id = maxId then minId else id + 1

/-- Moves the counter beyond an id that is in use. -/
def observe (c : IdCounter) (id : Int) : IdCounter :=
  if c.next ≤ id then ⟨following id⟩ else c

/-- The counter after its next id was handed out. -/
def bump (c : IdCounter) : IdCounter := ⟨following c.next⟩

theorem following_of_lt {id : Int} (h : id < maxId) : following id = id + 1 :=
  if_neg (Int.ne_of_lt h)

/-- The counter does not go back at an id below the largest one. -/
theorem le_observe (c : IdCounter) {id : Int} (h : id < maxId) : c.next ≤ (c.observe id).next := by
  unfold observe
  split
  · show c.next ≤ following id
    rw [following_of_lt h]
    omega
  · omega

/-- An observed id below the largest one lies below the counter. -/
theorem lt_observe (c : IdCounter) {id : Int} (h : id < maxId) : id < (c.observe id).next := by
  unfold observe
  split
  · show id < following id
    rw [following_of_lt h]
    omega
  · omega

end IdCounter

end LiveSwitch
