import LiveSwitch.Proofs.Register.Storage
import LiveSwitch.Register.Rehash

/-!
# What a rehash makes of a filter

A rehashed filter keeps its name and its shape and stands over a new storage.  A cell of it
holds a one, cut to its width, if a live value that is counted marks it, and zero otherwise.
Where the arrays that a rehash reads show just their storages, the live values and their counts
are read off the cells.

## Main definitions

* `Storage.setCells` — several cells set to one value.
* `RegisterArray.markedStorage` — the cells of a rehashed filter.

## Main results

* `RegisterArray.rehashed_eq` — the filter and the store after a rehash.
* `RegisterArray.cell_markedStorage` — its cells.
-/

namespace LiveSwitch

/-! ### Several cells -/

namespace Storage

variable {st : Storage}

/-- Sets several cells to one value. -/
def setCells (st : Storage) (l : List Nat) (x : UInt64) : Storage :=
  l.foldl (fun st i => st.setCell i x) st

@[simp] theorem bitwidth_setCells (st : Storage) (l : List Nat) (x : UInt64) :
    (st.setCells l x).bitwidth = st.bitwidth := by
  induction l generalizing st with
  | nil => rfl
  | cons i l ih => exact ih (st.setCell i x)

@[simp] theorem size_cells_setCells (st : Storage) (l : List Nat) (x : UInt64) :
    (st.setCells l x).cells.size = st.cells.size := by
  induction l generalizing st with
  | nil => rfl
  | cons i l ih => exact (ih (st.setCell i x)).trans (size_cells_setCell st i x)

theorem cell_setCells (st : Storage) (l : List Nat) (x : UInt64) (j : Nat) :
    (st.setCells l x).cell j = if j ∈ l ∧ j < st.cells.size then x else st.cell j := by
  induction l generalizing st with
  | nil => simp [setCells]
  | cons i l ih =>
    show ((st.setCell i x).setCells l x).cell j = _
    rw [ih, size_cells_setCell, cell_setCell]
    by_cases hj : j = i
    · subst hj
      by_cases hlt : j < st.cells.size <;> simp [hlt]
    · simp [hj]

theorem Fits.setCells (h : st.Fits) (l : List Nat) {x : UInt64}
    (hx : x &&& widthMask st.bitwidth = x) : (st.setCells l x).Fits := by
  intro j
  rw [bitwidth_setCells, cell_setCells]
  split
  · exact hx
  · exact h j

end Storage

/-! ### The filter -/

namespace RegisterArray

/-- The cells of a rehashed filter. -/
def markedStorage (a : RegisterArray) (r : RehashInputs) (s : Store) : Storage :=
  (Storage.zeros a.size a.bitwidth).setCells (marks a.size r s) (1 &&& widthMask a.bitwidth)

theorem fits_markedStorage (a : RegisterArray) (r : RehashInputs) (s : Store) :
    (a.markedStorage r s).Fits := by
  refine (Storage.fits_zeros _ _).setCells _ ?_
  show (1 &&& widthMask a.bitwidth) &&& widthMask a.bitwidth = _
  rw [and_widthMask, Nat.min_self]

theorem cell_markedStorage (a : RegisterArray) (r : RehashInputs) (s : Store) (j : Nat) :
    (a.markedStorage r s).cell j =
      if j ∈ marks a.size r s ∧ j < a.size then 1 &&& widthMask a.bitwidth else 0 := by
  rw [markedStorage, Storage.cell_setCells, Storage.size_cells_zeros, Storage.cell_zeros]

/-- A rehashed filter keeps its shape and stands over a new storage. -/
theorem rehashed_eq (a : RegisterArray) (r : RehashInputs) (s : Store) :
    a.rehashed r s =
      ({ identity := a.identity, size := a.size, bitwidth := a.bitwidth, storage := s.size,
         extra := a.extra }, s.add (a.markedStorage r s)) := by
  have hsize : (a.markedStorage r s).cells.size = a.size := by simp [markedStorage]
  have hwidth : (a.markedStorage r s).bitwidth = a.bitwidth := by
    simp [markedStorage, Storage.zeros]
  show create a.identity a.extra (a.markedStorage r s) s = _
  rw [create, hsize, hwidth]

theorem settled_rehashed (a : RegisterArray) (r : RehashInputs) (s : Store) :
    (a.rehashed r s).1.Settled (a.markedStorage r s) :=
  settled_create a.identity a.extra (fits_markedStorage a r s) s

end RegisterArray

/-! ### What a rehash reads -/

namespace RehashInputs

variable {r : RehashInputs} {s : Store}

theorem position_eq (h : r.lastPos.Settled (s.get r.lastPos.storage)) (hsize : r.lastPos.size ≠ 0) :
    r.position s = ((s.get r.lastPos.storage).cell 0).toNat := by
  rw [position, if_neg hsize, h.view]

theorem liveValues_eq (h : r.recording.Settled (s.get r.recording.storage)) :
    r.liveValues s = (List.range (min (r.position s) r.recording.size)).map
      (s.get r.recording.storage).cell :=
  List.map_congr_left fun i _ => h.view i

theorem isCounted_eq (h : r.counting.Settled (s.get r.counting.storage))
    (hsize : r.counting.size ≠ 0) (v : UInt64) :
    r.isCounted s v = ((s.get r.counting.storage).cell
      (slotIndex r.countingHash (r.message v) r.counting.size) != 0) := by
  rw [isCounted, h.view]
  simp [hsize]

end RehashInputs

end LiveSwitch
