import Mathlib.Algebra.Group.Nat.Defs
import LiveSwitch.Register.Array
import LiveSwitch.Register.Limits

/-!
# Cells, widths and layouts

A storage fits when each of its cells fits into its width.  Writes keep a storage fitting
whoever makes them, because a written value is cut to the width of the storage; carrying out
pending steps makes it fit whatever it was before, because the array that is shown through
them is cut to its own width.

An array without pending steps whose shape is that of its storage is settled.  It shows just
the cells of the storage.

## Main definitions

* `Storage.Fits` — every cell fits into the width.
* `Store.Extends` — storages are added, and the ones there were keep what they hold.
* `Store.Alike` — the same storages with other cells.
* `RegisterArray.Settled` — an array that shows just its storage.

## Main results

* `and_widthMask` — cutting to two widths is cutting to the smaller one.
* `RegisterArray.write_eq_ok` — what a write does.
* `RegisterArray.Settled.read_of_write` — what a read gives after a write.
* `RegisterArray.settled_migrate` — an array is settled once its steps are carried out.
-/

namespace LiveSwitch

/-! ### Limits -/

theorem Register.validSize_iff {n : Nat} : validSize n = true ↔ 0 < n ∧ n ≤ maxSize := by
  simp [validSize]

theorem Register.lt_of_validSize {n : Nat} (h : validSize n) : n < UInt64.size := by
  have hle : n ≤ 0x1000000 := (validSize_iff.mp h).2
  rw [UInt64.size]
  omega

theorem Register.validBitwidth_iff {n : Nat} :
    validBitwidth n = true ↔ 0 < n ∧ n ≤ maxBitwidth := by
  simp [validBitwidth]

theorem Register.lt_of_validBitwidth {n : Nat} (h : validBitwidth n) : n < UInt32.size := by
  have hle : n ≤ 64 := (validBitwidth_iff.mp h).2
  rw [UInt32.size]
  omega

/-! ### Masks -/

theorem testBit_widthMask (width i : Nat) :
    (widthMask width).toNat.testBit i = decide (i < min width 64) := by
  rw [toNat_widthMask, Nat.one_shiftLeft, Nat.testBit_two_pow_sub_one]

theorem toNat_and_widthMask (v : UInt64) (width : Nat) :
    (v &&& widthMask width).toNat = v.toNat % 2 ^ min width 64 := by
  rw [UInt64.toNat_and, toNat_widthMask, Nat.one_shiftLeft, Nat.and_two_pow_sub_one_eq_mod]

theorem and_widthMask_eq_self {v : UInt64} {width : Nat} (h : v.toNat < 2 ^ min width 64) :
    v &&& widthMask width = v := by
  rw [← UInt64.toNat_inj, toNat_and_widthMask, Nat.mod_eq_of_lt h]

/-- Cutting to two widths is cutting to the smaller one. -/
theorem and_widthMask (v : UInt64) (a b : Nat) :
    v &&& widthMask a &&& widthMask b = v &&& widthMask (min a b) := by
  rw [← UInt64.toNat_inj]
  refine Nat.eq_of_testBit_eq fun i => ?_
  simp only [UInt64.toNat_and, Nat.testBit_and, testBit_widthMask, Bool.and_assoc]
  congr 1
  rw [← Bool.decide_and, decide_eq_decide]
  omega

theorem and_widthMask_of_le {v : UInt64} {a b : Nat} (hab : a ≤ b)
    (hv : v &&& widthMask a = v) : v &&& widthMask b = v := by
  rw [← hv, and_widthMask, Nat.min_eq_left hab]

@[simp] theorem zero_and_widthMask (width : Nat) : (0 : UInt64) &&& widthMask width = 0 := by
  simp

/-! ### Storages -/

namespace Storage

/-- Every cell fits into the width. -/
def Fits (st : Storage) : Prop := ∀ i, st.cell i &&& widthMask st.bitwidth = st.cell i

@[simp] theorem size_cells_zeros (size bitwidth : Nat) :
    (zeros size bitwidth).cells.size = size := Array.size_replicate

@[simp] theorem cell_zeros (size bitwidth i : Nat) : (zeros size bitwidth).cell i = 0 := by
  rw [cell, zeros]
  by_cases h : i < size
  · simp [h]
  · simp [h]

theorem fits_zeros (size bitwidth : Nat) : (zeros size bitwidth).Fits := by
  intro i
  rw [cell_zeros, zero_and_widthMask]

@[simp] theorem size_cells_reset (st : Storage) : st.reset.cells.size = st.cells.size :=
  Array.size_map

@[simp] theorem cell_reset (st : Storage) (i : Nat) : st.reset.cell i = 0 := by
  rw [cell, reset]
  by_cases h : i < st.cells.size
  · simp [h]
  · simp [h]

theorem fits_reset (st : Storage) : st.reset.Fits := by
  intro i
  rw [cell_reset, zero_and_widthMask]

/-- Setting a cell to a value that fits keeps a storage fitting. -/
theorem Fits.setCell {st : Storage} (h : st.Fits) (i : Nat) {v : UInt64}
    (hv : v &&& widthMask st.bitwidth = v) : (st.setCell i v).Fits := by
  intro j
  rw [bitwidth_setCell, cell_setCell]
  split
  · exact hv
  · exact h j

/-- A cell that fits is below the power of two of the width. -/
theorem Fits.toNat_le {st : Storage} (h : st.Fits) {v : UInt64} (hv : v ∈ st.cells) :
    v.toNat ≤ 1 <<< min st.bitwidth 64 - 1 := by
  obtain ⟨i, hi, rfl⟩ := Array.mem_iff_getElem.mp hv
  have hcell : st.cell i = st.cells[i] := by simp [cell, hi]
  rw [← hcell, ← h i, UInt64.toNat_and, toNat_widthMask]
  exact Nat.and_le_right

/-- Another storage of the same shape, whose cells fit if those of the first do. -/
structure Alike (st st' : Storage) : Prop where
  bitwidth : st'.bitwidth = st.bitwidth
  size : st'.cells.size = st.cells.size
  fits : st.Fits → st'.Fits

theorem Alike.refl (st : Storage) : st.Alike st := ⟨rfl, rfl, id⟩

theorem Alike.trans {st st' st'' : Storage} (h : st.Alike st') (h' : st'.Alike st'') :
    st.Alike st'' :=
  ⟨h'.bitwidth.trans h.bitwidth, h'.size.trans h.size, fun hfits => h'.fits (h.fits hfits)⟩

end Storage

/-! ### Stores -/

namespace Store

/-- Storages are added, and the ones there were keep what they hold. -/
structure Extends (s s' : Store) : Prop where
  size_le : s.size ≤ s'.size
  get_eq : ∀ n, n < s.size → s'.get n = s.get n

theorem Extends.refl (s : Store) : s.Extends s := ⟨Nat.le_refl _, fun _ _ => rfl⟩

theorem Extends.trans {s s' s'' : Store} (h : s.Extends s') (h' : s'.Extends s'') :
    s.Extends s'' where
  size_le := Nat.le_trans h.size_le h'.size_le
  get_eq n hn := by rw [h'.get_eq n (Nat.lt_of_lt_of_le hn h.size_le), h.get_eq n hn]

theorem extends_add (s : Store) (st : Storage) : s.Extends (s.add st) where
  size_le := by rw [size_add]; omega
  get_eq n hn := by rw [get_add, if_neg (by omega)]

theorem get_set_self {s : Store} {n : Nat} {st : Storage} (h : n < s.size) :
    (s.set n st).get n = st := by
  rw [get_set, if_pos ⟨rfl, h⟩]

theorem get_set_of_ne {s : Store} {n m : Nat} {st : Storage} (h : m ≠ n) :
    (s.set n st).get m = s.get m := by
  rw [get_set, if_neg fun e => h e.1]

/-- Storages that were never added have no cells. -/
theorem lt_size_of_lt_cells {s : Store} {n i : Nat} (h : i < (s.get n).cells.size) :
    n < s.size := by
  rcases Nat.lt_or_ge n s.size with hn | hn
  · exact hn
  · have hnone : s.storages[n]? = none := List.getElem?_eq_none hn
    rw [get, hnone] at h
    exact absurd h (Nat.not_lt_zero i)

/-- The same storages, each with other cells at most. -/
structure Alike (s s' : Store) : Prop where
  size : s'.size = s.size
  get : ∀ n, (s.get n).Alike (s'.get n)

theorem Alike.refl (s : Store) : s.Alike s := ⟨rfl, fun _ => Storage.Alike.refl _⟩

theorem Alike.trans {s s' s'' : Store} (h : s.Alike s') (h' : s'.Alike s'') : s.Alike s'' :=
  ⟨h'.size.trans h.size, fun n => (h.get n).trans (h'.get n)⟩

theorem Alike.set {s : Store} {n : Nat} {st : Storage} (h : (s.get n).Alike st) :
    s.Alike (s.set n st) where
  size := size_set ..
  get m := by
    rw [get_set]
    split
    case isTrue hm => exact hm.1 ▸ h
    case isFalse => exact Storage.Alike.refl _

end Store

/-! ### Arrays over their storage -/

namespace RegisterArray

/-- The array shows just the cells of its storage. -/
structure Settled (a : RegisterArray) (st : Storage) : Prop where
  pending : a.pending = []
  bitwidth : st.bitwidth = a.bitwidth
  size : st.cells.size = a.size
  fits : st.Fits

theorem Settled.view {a : RegisterArray} {st : Storage} (h : a.Settled st) (i : Nat) :
    a.view st i = st.cell i := by
  rw [RegisterArray.view, h.pending, List.foldl_nil, ← h.bitwidth]
  exact h.fits i

theorem Settled.alike {a : RegisterArray} {st st' : Storage} (h : a.Settled st)
    (h' : st.Alike st') : a.Settled st' where
  pending := h.pending
  bitwidth := h'.bitwidth.trans h.bitwidth
  size := h'.size.trans h.size
  fits := h'.fits h.fits

theorem Settled.read {a : RegisterArray} {s : Store} (h : a.Settled (s.get a.storage)) {i : Nat}
    (hi : i < a.size) : a.read s i = .ok ((s.get a.storage).cell i) := by
  rw [RegisterArray.read, if_pos hi, h.view]

theorem Settled.read_of_get {a : RegisterArray} {st : Storage} {s : Store} {i : Nat}
    (h : a.Settled st) (hget : s.get a.storage = st) (hi : i < a.size) :
    a.read s i = .ok (st.cell i) := by
  subst hget
  exact h.read hi

/-- A write reaches a cell of both the array and the storage and cuts the value to both
widths. -/
theorem write_eq_ok {a : RegisterArray} {s s' : Store} {i : Nat} {v : UInt64} :
    a.write s i v = .ok s' ↔ (i < a.size ∧ i < (s.get a.storage).cells.size) ∧
      s' = s.set a.storage ((s.get a.storage).setCell i
        (v &&& widthMask (min a.bitwidth (s.get a.storage).bitwidth))) := by
  have hlt : i < a.writeSize (s.get a.storage) ↔ i < a.size ∧ i < (s.get a.storage).cells.size :=
    Nat.lt_min
  rw [write]
  by_cases h : i < a.writeSize (s.get a.storage)
  · rw [if_pos h, Except.ok.injEq, eq_comm]
    exact (and_iff_right (hlt.mp h)).symm
  · rw [if_neg h]
    have h' := mt hlt.mpr h
    simp [h']

/-- Through an array that shows just its storage every cell can be written. -/
theorem Settled.exists_write_iff {a : RegisterArray} {s : Store} {i : Nat} {v : UInt64}
    (ha : a.Settled (s.get a.storage)) : (∃ s', a.write s i v = .ok s') ↔ i < a.size := by
  simp only [write_eq_ok, ha.size, and_self, exists_and_left, exists_eq, and_true]

/-- A write changes one cell of one storage. -/
theorem cell_of_write_of_ne {a : RegisterArray} {s s' : Store} {i : Nat} {v : UInt64}
    (h : a.write s i v = .ok s') {n j : Nat} (hne : (n, j) ≠ (a.storage, i)) :
    (s'.get n).cell j = (s.get n).cell j := by
  rw [(write_eq_ok.mp h).2]
  by_cases hn : n = a.storage
  · have hj : j ≠ i := fun hj => hne (by rw [hn, hj])
    rw [Store.get_set, hn]
    split
    · rw [Storage.cell_setCell, if_neg fun e => hj e.1]
    · rfl
  · rw [Store.get_set_of_ne hn]

/-- A write keeps storages alike, through whatever array it goes. -/
theorem alike_write {a : RegisterArray} {s s' : Store} {i : Nat} {v : UInt64}
    (h : a.write s i v = .ok s') : s.Alike s' := by
  rw [(write_eq_ok.mp h).2]
  refine Store.Alike.set ⟨rfl, Storage.size_cells_setCell .., fun hfits => hfits.setCell i ?_⟩
  -- the width that a write cuts to is at most that of the storage
  rw [and_widthMask]
  congr 2
  omega

theorem alike_reset (a : RegisterArray) (s : Store) : s.Alike (a.reset s) :=
  Store.Alike.set ⟨rfl, Storage.size_cells_reset _, fun _ => Storage.fits_reset _⟩

/-- What an array shows after a write through one that may share its storage: the value that was
written, cut to the width, or what it showed before. -/
theorem Settled.read_of_write {a b : RegisterArray} {s s' : Store} {i : Nat}
    {v : UInt64} (ha : a.Settled (s.get a.storage)) (hb : b.Settled (s.get b.storage))
    (h : a.write s i v = .ok s') (j : Nat) :
    b.read s' j = if b.storage = a.storage ∧ j = i then .ok (v &&& widthMask a.bitwidth)
      else b.read s j := by
  have hb' := hb.alike ((alike_write h).get b.storage)
  obtain ⟨⟨hi, hcell⟩, hs'⟩ := write_eq_ok.mp h
  by_cases hj : j < b.size
  · rw [hb'.read hj, hb.read hj, hs', ha.bitwidth, Nat.min_self]
    by_cases hst : b.storage = a.storage
    · have hn := Store.lt_size_of_lt_cells hcell
      rw [hst, Store.get_set_self hn, Storage.cell_setCell]
      by_cases hji : j = i
      · rw [if_pos ⟨hji, hcell⟩, if_pos ⟨rfl, hji⟩]
      · rw [if_neg fun e => hji e.1, if_neg fun e => hji e.2]
    · rw [Store.get_set_of_ne hst, if_neg fun e => hst e.1]
  · -- a shared storage has the size of both arrays
    have hne : ¬(b.storage = a.storage ∧ j = i) := by
      rintro ⟨hst, rfl⟩
      exact hj (hb.size ▸ hst ▸ hcell)
    rw [if_neg hne, RegisterArray.read, RegisterArray.read, if_neg hj, if_neg hj]

@[simp] theorem bitwidth_migrate (a : RegisterArray) (st : Storage) :
    (a.migrate st).bitwidth = a.bitwidth := rfl

@[simp] theorem size_cells_migrate (a : RegisterArray) (st : Storage) :
    (a.migrate st).cells.size = a.size := Array.size_ofFn

theorem cell_migrate (a : RegisterArray) (st : Storage) (i : Nat) :
    (a.migrate st).cell i = if i < a.size then a.view st i else 0 := by
  rw [Storage.cell, migrate]
  split
  case isTrue h => simp [h]
  case isFalse h => simp [h]

theorem fits_migrate (a : RegisterArray) (st : Storage) : (a.migrate st).Fits := by
  intro i
  rw [cell_migrate, bitwidth_migrate]
  split
  · rw [view, and_widthMask, Nat.min_self]
  · exact zero_and_widthMask _

/-- An array is settled once its pending steps are carried out, whatever its storage held. -/
theorem settled_migrate (a : RegisterArray) (st : Storage) : a.settled.Settled (a.migrate st) where
  pending := rfl
  bitwidth := rfl
  size := size_cells_migrate a st
  fits := fits_migrate a st

/-- A new array is settled over the storage it is made for. -/
theorem settled_create (identity : Identity) (extra : Json.Object) {st : Storage} (h : st.Fits)
    (s : Store) : (create identity extra st s).1.Settled st where
  pending := rfl
  bitwidth := rfl
  size := rfl
  fits := h

theorem zeros_eq (identity : Identity) (size bitwidth : Nat) (extra : Json.Object) (s : Store) :
    zeros identity size bitwidth extra s =
      ({ identity, size, bitwidth, storage := s.size, extra }, s.add (.zeros size bitwidth)) := by
  simp [zeros, create, Storage.zeros]

theorem settled_zeros (identity : Identity) (size bitwidth : Nat) (extra : Json.Object)
    (s : Store) :
    (zeros identity size bitwidth extra s).1.Settled (.zeros size bitwidth) :=
  settled_create identity extra (Storage.fits_zeros size bitwidth) s

end RegisterArray

end LiveSwitch
