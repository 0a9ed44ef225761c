import LiveSwitch.Hash.Algorithm
import LiveSwitch.Hash.Packing
import LiveSwitch.Register.Array

/-!
# Rehashing a filter

A filter is an array in which a recorded value marks the cells that three hashes of it
name.  When the filter gets another size, its marks are made anew from the recorded
values: those up to the last position whose counter is not zero.

## Main definitions

* `RehashInputs` — the arrays and hashes that a rehash reads.
* `RegisterArray.marks` — the cells that the recorded values mark.
* `RegisterArray.rehashed` — the filter over a new storage with these marks.
-/

namespace LiveSwitch

/-- Three hash algorithms. -/
structure HashTriple where
  first : HashAlgorithm
  second : HashAlgorithm
  third : HashAlgorithm
  deriving DecidableEq, Repr, Inhabited

/-- The algorithms in order. -/
def HashTriple.toList (h : HashTriple) : List HashAlgorithm := [h.first, h.second, h.third]

/-- What a rehash reads. -/
structure RehashInputs where
  /-- The values in the order they were recorded. -/
  recording : RegisterArray
  /-- Its first cell is the number of recorded values. -/
  lastPos : RegisterArray
  /-- How often the values of a hash are present. -/
  counting : RegisterArray
  countingHash : HashAlgorithm
  targetHashes : HashTriple

/-- The cell, of `size` many, that a hash of a message names. -/
def slotIndex (h : HashAlgorithm) (message : List UInt8) (size : Nat) : Nat :=
  (h.compute message).toNat % size

namespace RehashInputs

/-- The bytes of a recorded value. -/
def message (r : RehashInputs) (v : UInt64) : List UInt8 :=
  Hash.packFields [(v, r.recording.bitwidth)]

/-- The last position: the first cell of its array. -/
def position (r : RehashInputs) (s : Store) : Nat :=
  if r.lastPos.size = 0 then 0 else (r.lastPos.view (s.get r.lastPos.storage) 0).toNat

/-- The recorded values up to the last position. -/
def liveValues (r : RehashInputs) (s : Store) : List UInt64 :=
  (List.range (min (r.position s) r.recording.size)).map
    (r.recording.view (s.get r.recording.storage))

/-- Whether the counter of a value is not zero.  Without counters every value is kept. -/
def isCounted (r : RehashInputs) (s : Store) (v : UInt64) : Bool :=
  r.counting.size == 0 ||
    r.counting.view (s.get r.counting.storage)
      (slotIndex r.countingHash (r.message v) r.counting.size) != 0

end RehashInputs

namespace RegisterArray

/-- The cells of a filter of `size` cells that the recorded values mark. -/
def marks (size : Nat) (r : RehashInputs) (s : Store) : List Nat :=
  ((r.liveValues s).filter (r.isCounted s)).flatMap fun v =>
    r.targetHashes.toList.map fun h => slotIndex h (r.message v) size

/-- The filter over a new storage in which just the marked cells hold a one. -/
def rehashed (a : RegisterArray) (r : RehashInputs) (s : Store) : RegisterArray × Store :=
  let blank := Storage.zeros a.size a.bitwidth
  let one := 1 &&& widthMask a.bitwidth
  create a.identity a.extra ((marks a.size r s).foldl (fun st i => st.setCell i one) blank) s

end RegisterArray

end LiveSwitch
