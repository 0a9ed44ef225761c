import LiveSwitch.Packet.Basic

/-!
# Storage of register cells

The cells of register arrays live in storages that outlast any one program: a program and
the programs that replace it refer to the same storage by its number, so a write made
through an older one is seen by the newer one.  Storages are only ever added.

## Main definitions

* `Storage` — the cells of one storage and their width.
* `Store` — all storages, with `get`, `set` and `add`.

## Main results

* `Store.get_set`, `Store.get_add` — what a storage holds after a change.
-/

namespace LiveSwitch

/-- The cells of one storage and the number of bits of each. -/
structure Storage where
  bitwidth : Nat := 0
  cells : Array UInt64 := #[]
  deriving DecidableEq, Repr, Inhabited

namespace Storage

/-- A storage of cells that are all zero. -/
def zeros (size bitwidth : Nat) : Storage := ⟨bitwidth, Array.replicate size 0⟩

/-- The value of a cell; beyond the cells everything is zero. -/
def cell (s : Storage) (i : Nat) : UInt64 := s.cells[i]?.getD 0

/-- Sets a cell; beyond the cells there is nothing to set. -/
def setCell (s : Storage) (i : Nat) (v : UInt64) : Storage :=
  { s with cells := s.cells.setIfInBounds i v }

/-- Sets every cell to zero. -/
def reset (s : Storage) : Storage := { s with cells := s.cells.map fun _ => 0 }

@[simp] theorem bitwidth_setCell (s : Storage) (i : Nat) (v : UInt64) :
    (s.setCell i v).bitwidth = s.bitwidth := rfl

@[simp] theorem size_cells_setCell (s : Storage) (i : Nat) (v : UInt64) :
    (s.setCell i v).cells.size = s.cells.size := by
  simp [setCell]

/-- A cell holds the value it was set to; the others hold what they held. -/
theorem cell_setCell (s : Storage) (i : Nat) (v : UInt64) (j : Nat) :
    (s.setCell i v).cell j = if j = i ∧ i < s.cells.size then v else s.cell j := by
  by_cases h : j = i
  · subst h
    by_cases hj : j < s.cells.size
    · simp [cell, setCell, hj]
    · simp [cell, setCell, hj]
  · have h' : i ≠ j := fun e => h e.symm
    simp [cell, setCell, h, h']

end Storage

/-- All storages, by their numbers. -/
structure Store where
  storages : List Storage := []
  deriving DecidableEq, Repr, Inhabited

namespace Store

/-- The number of storages, which is the number the next one gets. -/
def size (s : Store) : Nat := s.storages.length

/-- The storage of a number. -/
def get (s : Store) (n : Nat) : Storage := s.storages[n]?.getD {}

/-- Replaces the storage of a number. -/
def set (s : Store) (n : Nat) (st : Storage) : Store := ⟨s.storages.set n st⟩

/-- Adds a storage under the next number. -/
def add (s : Store) (st : Storage) : Store := ⟨s.storages ++ [st]⟩

@[simp] theorem size_set (s : Store) (n : Nat) (st : Storage) : (s.set n st).size = s.size := by
  simp [set, size]

@[simp] theorem size_add (s : Store) (st : Storage) : (s.add st).size = s.size + 1 := by
  simp [add, size]

/-- A replaced storage holds its new cells; the others hold what they held. -/
theorem get_set (s : Store) (n : Nat) (st : Storage) (m : Nat) :
    (s.set n st).get m = if m = n ∧ n < s.size then st else s.get m := by
  by_cases h : m = n
  · subst h
    by_cases hm : m < s.storages.length
    · simp [get, set, size, hm]
    · simp [get, set, size, hm]
  · have h' : n ≠ m := fun e => h e.symm
    simp [get, set, h, h']

/-- An added storage takes the next number; the others hold what they held. -/
theorem get_add (s : Store) (st : Storage) (m : Nat) :
    (s.add st).get m = if m = s.size then st else s.get m := by
  by_cases h : m = s.storages.length
  · simp [get, add, size, h]
  · by_cases hlt : m < s.storages.length
    · simp [get, add, size, h, List.getElem?_append_left hlt]
    · have hle : s.storages.length ≤ m := Nat.le_of_not_lt hlt
      have hne : m - s.storages.length ≠ 0 := by omega
      simp [get, add, size, h, List.getElem?_append_right hle, hle, hne]

end Store

end LiveSwitch
