import LiveSwitch.ObjectMap
import LiveSwitch.Register.Store
import LiveSwitch.RunError

/-!
# Register arrays

A register array is a declared shape over a storage.  A change of its size or width does
not touch the storage: the array keeps the changes as pending steps and shows each cell as
it will be once they are carried out.  Committing an array carries them out in the shared
storage, so cells written meanwhile through an older array are migrated too.

## Main definitions

* `Migration` — a pending change of size or width.
* `RegisterArray` — the array, with `view`, `read?`, `write`, `reset` and `snapshot`.
* `RegisterArray.resized`, `RegisterArray.rewidened` — the array with one more pending
  step.
* `RegisterArray.committed` — the array with its steps carried out.
* `RegisterArray.cleared` — the array over a new storage of zeros.
-/

namespace LiveSwitch

open Json

/-- A change of layout that the storage has not seen yet. -/
inductive Migration where
  /-- Keeps the cells below the new size; new cells are zero. -/
  | resize (size : Nat)
  /-- Cuts every cell to the new width. -/
  | rewiden (bitwidth : Nat)
  deriving DecidableEq, Repr

/-- What a step makes of the value of cell `index` and the width of the cells. -/
def Migration.replay (index : Nat) (cell : UInt64 × Nat) : Migration → UInt64 × Nat
  | resize size => if size ≤ index then (0, cell.2) else cell
  | rewiden bitwidth =>
    (if bitwidth < cell.2 then cell.1 &&& widthMask bitwidth else cell.1, bitwidth)

/-- A register array. -/
structure RegisterArray where
  identity : Identity
  size : Nat
  bitwidth : Nat
  /-- The number of the storage that holds the cells. -/
  storage : Nat
  pending : List Migration := []
  /-- The fields of its document entry that have no meaning here. -/
  extra : Object := []
  deriving DecidableEq, Repr, Inhabited

instance : Named RegisterArray := ⟨RegisterArray.identity⟩

namespace RegisterArray

/-- The name of an array. -/
def name (a : RegisterArray) : String := a.identity.name

/-- Whether steps are pending. -/
def isPending (a : RegisterArray) : Bool := !a.pending.isEmpty

/-- The value of a cell as the array shows it over a storage. -/
def view (a : RegisterArray) (st : Storage) (i : Nat) : UInt64 :=
  (a.pending.foldl (Migration.replay i) (st.cell i, st.bitwidth)).1 &&& widthMask a.bitwidth

/-- All cells as the array shows them. -/
def snapshot (a : RegisterArray) (s : Store) : List UInt64 :=
  (List.range a.size).map (a.view (s.get a.storage))

/-- Reads a cell. -/
def read (a : RegisterArray) (s : Store) (i : Nat) : Except IndexError UInt64 :=
  if i < a.size then .ok (a.view (s.get a.storage) i) else .error ⟨a.name, i, a.size⟩

/-- The width that a written value is cut to: it has to fit the array and the storage. -/
def writeWidth (a : RegisterArray) (st : Storage) : Nat := min a.bitwidth st.bitwidth

/-- The number of cells that can be written: cells of both the array and the storage. -/
def writeSize (a : RegisterArray) (st : Storage) : Nat := min a.size st.cells.size

/-- Writes a cell. -/
def write (a : RegisterArray) (s : Store) (i : Nat) (v : UInt64) : Except IndexError Store :=
  let st := s.get a.storage
  if i < a.writeSize st then
    .ok (s.set a.storage (st.setCell i (v &&& widthMask (a.writeWidth st))))
  else .error ⟨a.name, i, a.writeSize st⟩

/-- Sets every cell of the storage to zero. -/
def reset (a : RegisterArray) (s : Store) : Store :=
  s.set a.storage (s.get a.storage).reset

/-- A new array over a new storage. -/
def create (identity : Identity) (extra : Object) (st : Storage) (s : Store) :
    RegisterArray × Store :=
  ({ identity, size := st.cells.size, bitwidth := st.bitwidth, storage := s.size, extra },
    s.add st)

/-- A new array of zeros. -/
def zeros (identity : Identity) (size bitwidth : Nat) (extra : Object) (s : Store) :
    RegisterArray × Store :=
  create identity extra (.zeros size bitwidth) s

/-- The array with another number of cells, pending. -/
def resized (a : RegisterArray) (size : Nat) : RegisterArray :=
  { a with size, pending := a.pending ++ [.resize size] }

/-- The array with another width, pending. -/
def rewidened (a : RegisterArray) (bitwidth : Nat) : RegisterArray :=
  { a with bitwidth, pending := a.pending ++ [.rewiden bitwidth] }

/-- The storage after the pending steps of the array. -/
def migrate (a : RegisterArray) (st : Storage) : Storage :=
  ⟨a.bitwidth, Array.ofFn fun i : Fin a.size => a.view st i⟩

/-- The array without pending steps. -/
def settled (a : RegisterArray) : RegisterArray := { a with pending := [] }

/-- Carries the pending steps out in the storage. -/
def committed (a : RegisterArray) (s : Store) : RegisterArray × Store :=
  (a.settled, s.set a.storage (a.migrate (s.get a.storage)))

/-- The array with the same shape over a new storage of zeros. -/
def cleared (a : RegisterArray) (s : Store) : RegisterArray × Store :=
  zeros a.identity a.size a.bitwidth a.extra s

end RegisterArray

end LiveSwitch
