import LiveSwitch.Proofs.Register.Migration

/-!
# Pending steps carried out at once

An array with pending steps shows what one gets when the steps are carried out one by one on the
cells themselves.  At each index a step keeps some bits of the cell and clears the others: a
change of size keeps all or nothing, a change of width the lower bits.  So a series of steps comes
down to one mask for each index, whatever commits come in between, and steps that were carried
out before clear nothing more.

## Main definitions

* `Migration.carryOut` — a step carried out on a list of cells.
* `Migration.mask`, `Migration.maskAll` — the bits that a step, or a series of steps, keeps of a
  cell.
* `RegisterArray.writeAll` — some writes through an array.
* `RegisterArray.commitEach` — blocks of steps, each with a commit after it.
* `RegisterArray.Spares` — no step of an array goes below the array's own shape.

## Main results

* `RegisterArray.Settled.view_relayout` — what an array shows through any steps.
* `RegisterArray.Settled.snapshot_relayout` — the steps one by one give what the array shows.
* `RegisterArray.Settled.commitEach_eq` — it does not matter where commits come in between.
* `RegisterArray.Settled.view_migrate_relayout`, `RegisterArray.view_of_spares` — what older
  arrays show after a commit.
* `RegisterArray.lazy_view_eager` — all of this about one array and its steps.
-/

namespace LiveSwitch

/-! ### Bits that steps keep -/

theorem and_widthMask_64 (v : UInt64) : v &&& widthMask 64 = v :=
  and_widthMask_eq_self v.toNat_lt

namespace Migration

/-- A step carried out on a list of cells: a change of size keeps the cells in front and fills up
with zeros, a change of width cuts every cell. -/
def carryOut (cells : List UInt64) : Migration → List UInt64
  | resize size => cells.take size ++ List.replicate (size - cells.length) 0
  | rewiden bitwidth => cells.map (· &&& widthMask bitwidth)

/-- The bits that a step keeps of cell `i`. -/
def mask (i : Nat) : Migration → UInt64
  | resize size => if size ≤ i then 0 else widthMask 64
  | rewiden bitwidth => widthMask bitwidth

/-- The bits that all of some steps keep of cell `i`. -/
def maskAll (i : Nat) : List Migration → UInt64
  | [] => widthMask 64
  | m :: ms => m.mask i &&& maskAll i ms

variable {i : Nat} {m : Migration} {ms : List Migration} {cells : List UInt64}
  {cell : UInt64 × Nat}

theorem maskAll_append (i : Nat) (ms ms' : List Migration) :
    maskAll i (ms ++ ms') = maskAll i ms &&& maskAll i ms' := by
  induction ms with
  | nil => rw [List.nil_append, maskAll, UInt64.and_comm, and_widthMask_64]
  | cons m ms ih => rw [List.cons_append, maskAll, maskAll, ih, UInt64.and_assoc]

theorem getD_carryOut (cells : List UInt64) (m : Migration) (i : Nat) :
    (m.carryOut cells).getD i 0 = cells.getD i 0 &&& m.mask i := by
  cases m with
  | resize n =>
    rw [carryOut, mask, List.getD_eq_getElem?_getD, List.getD_eq_getElem?_getD]
    by_cases hn : n ≤ i
    · have hlength : (cells.take n ++ List.replicate (n - cells.length) 0).length ≤ i := by
        rw [List.length_append, List.length_take, List.length_replicate]
        omega
      rw [if_pos hn, List.getElem?_eq_none hlength, UInt64.and_zero]
      rfl
    · rw [if_neg hn, and_widthMask_64]
      rcases Nat.lt_or_ge i cells.length with hi | hi
      · rw [List.getElem?_append_left (by rw [List.length_take]; omega), List.getElem?_take,
          if_pos (by omega)]
      · -- beyond the old cells stand the zeros that were filled in
        rw [List.getElem?_append_right (by rw [List.length_take]; omega),
          List.getElem?_replicate, List.getElem?_eq_none hi]
        split <;> rfl
  | rewiden w =>
    rw [carryOut, mask, List.getD_eq_getElem?_getD, List.getD_eq_getElem?_getD,
      List.getElem?_map]
    cases cells[i]? with
    | none => exact (zero_and_widthMask w).symm
    | some v => rfl

/-- Steps carried out one by one keep of each cell what all of them keep. -/
theorem getD_foldl_carryOut (cells : List UInt64) (ms : List Migration) (i : Nat) :
    (ms.foldl carryOut cells).getD i 0 = cells.getD i 0 &&& maskAll i ms := by
  induction ms generalizing cells with
  | nil => rw [List.foldl_nil, maskAll, and_widthMask_64]
  | cons m ms ih => rw [List.foldl_cons, ih, getD_carryOut, maskAll, UInt64.and_assoc]

/-- The step that an array replays for a cell that fits its width keeps the same bits. -/
theorem replay_eq_and_mask (hcell : cell.1 &&& widthMask cell.2 = cell.1) :
    (m.replay i cell).1 = cell.1 &&& m.mask i ∧
      (m.replay i cell).1 &&& widthMask (m.replay i cell).2 = (m.replay i cell).1 := by
  cases m with
  | resize n =>
    rw [replay, mask]
    split
    · exact ⟨UInt64.and_zero.symm, zero_and_widthMask _⟩
    · exact ⟨(and_widthMask_64 _).symm, hcell⟩
  | rewiden w => exact replay_fits hcell fun _ h => by cases h

theorem foldl_replay_eq_and_maskAll (i : Nat) (ms : List Migration) (cell : UInt64 × Nat)
    (hcell : cell.1 &&& widthMask cell.2 = cell.1) :
    (ms.foldl (replay i) cell).1 = cell.1 &&& maskAll i ms ∧
      (ms.foldl (replay i) cell).1 &&& widthMask (ms.foldl (replay i) cell).2 =
        (ms.foldl (replay i) cell).1 := by
  induction ms generalizing cell with
  | nil => exact ⟨(and_widthMask_64 _).symm, hcell⟩
  | cons m ms ih =>
    obtain ⟨hvalue, hfits⟩ := replay_eq_and_mask (m := m) (i := i) hcell
    obtain ⟨hvalue', hfits'⟩ := ih _ hfits
    rw [List.foldl_cons, maskAll, ← UInt64.and_assoc, ← hvalue]
    exact ⟨hvalue', hfits'⟩

end Migration

open Migration

/-! ### Arrays through any steps -/

/-- A storage is its cells and their width. -/
theorem Storage.ext_cell {st st' : Storage} (hbitwidth : st.bitwidth = st'.bitwidth)
    (hsize : st.cells.size = st'.cells.size) (hcell : ∀ i, st.cell i = st'.cell i) : st = st' := by
  obtain ⟨w, cells⟩ := st
  obtain ⟨w', cells'⟩ := st'
  cases hbitwidth
  congr 1
  refine Array.ext hsize fun i hi hi' => ?_
  have hi : cells[i]?.getD 0 = cells'[i]?.getD 0 := hcell i
  simpa [*] using hi

theorem Store.set_set (s : Store) (n : Nat) (st st' : Storage) :
    (s.set n st).set n st' = s.set n st' := by
  rw [set, set, set, List.set_set]

theorem Store.set_get_self (s : Store) (n : Nat) : s.set n (s.get n) = s := by
  obtain ⟨storages⟩ := s
  rw [set, mk.injEq]
  refine List.ext_getElem? fun m => ?_
  rw [List.getElem?_set]
  split
  case isTrue h =>
    subst h
    split
    case isTrue hn => simp [get, hn]
    case isFalse hn => rw [List.getElem?_eq_none (Nat.le_of_not_lt hn)]
  case isFalse => rfl

namespace RegisterArray

variable {a b : RegisterArray} {s : Store} {st : Storage} {ms ms' : List Migration}

theorem bitwidth_relayout_eq_replay {cell : UInt64 × Nat} (h : cell.2 = a.bitwidth) (i : Nat)
    (ms : List Migration) : (ms.foldl (replay i) cell).2 = (a.relayout ms).bitwidth := by
  induction ms generalizing a cell with
  | nil => exact h
  | cons m ms ih =>
    rw [List.foldl_cons, relayout, List.foldl_cons]
    refine ih (a := a.migrated m) ?_
    cases m with
    | resize n =>
      rw [replay]
      split <;> exact h
    | rewiden w => rfl

theorem length_foldl_carryOut {cells : List UInt64} (h : cells.length = a.size)
    (ms : List Migration) : (ms.foldl carryOut cells).length = (a.relayout ms).size := by
  induction ms generalizing a cells with
  | nil => exact h
  | cons m ms ih =>
    rw [List.foldl_cons, relayout, List.foldl_cons]
    refine ih (a := a.migrated m) ?_
    cases m with
    | resize n =>
      rw [carryOut, List.length_append, List.length_take, List.length_replicate]
      show _ = n
      omega
    | rewiden w => rw [carryOut, List.length_map, h]; rfl

/-- The shape that steps give does not depend on the steps before them. -/
theorem settled_relayout_congr (h : a.settled = b.settled) (ms : List Migration) :
    (a.relayout ms).settled = (b.relayout ms).settled := by
  induction ms generalizing a b with
  | nil => exact h
  | cons m ms ih =>
    rw [relayout, relayout, List.foldl_cons, List.foldl_cons]
    refine ih (a := a.migrated m) (b := b.migrated m) ?_
    simp only [settled, mk.injEq] at h
    obtain ⟨hidentity, hsize, hbitwidth, hstorage, -, hextra⟩ := h
    cases m with
    | resize n => simp [settled, migrated, resized, hidentity, hbitwidth, hstorage, hextra]
    | rewiden w => simp [settled, migrated, rewidened, hidentity, hsize, hstorage, hextra]

theorem settled_relayout_append (a : RegisterArray) (ms ms' : List Migration) :
    ((a.relayout ms).settled.relayout ms').settled = (a.relayout (ms ++ ms')).settled := by
  rw [relayout_append]
  exact settled_relayout_congr (a := (a.relayout ms).settled) (b := a.relayout ms) rfl ms'

theorem length_snapshot (a : RegisterArray) (s : Store) : (a.snapshot s).length = a.size := by
  rw [snapshot, List.length_map, List.length_range]

namespace Settled

/-- An array shows of a cell what its steps keep of it. -/
theorem view_relayout (ha : a.Settled st) (ms : List Migration) (i : Nat) :
    (a.relayout ms).view st i = st.cell i &&& maskAll i ms := by
  obtain ⟨hvalue, hfits⟩ :=
    foldl_replay_eq_and_maskAll i ms (st.cell i, st.bitwidth) (ha.fits i)
  rw [bitwidth_relayout_eq_replay ha.bitwidth] at hfits
  rw [RegisterArray.view, pending_relayout, ha.pending, List.nil_append, hfits, hvalue]

theorem snapshot_eq (ha : a.Settled (s.get a.storage)) :
    a.snapshot s = (s.get a.storage).cells.toList := by
  refine List.ext_getElem ?_ fun i hi hi' => ?_
  · rw [snapshot, List.length_map, List.length_range, Array.length_toList, ha.size]
  · rw [Array.length_toList] at hi'
    simp only [snapshot, List.getElem_map, List.getElem_range, ha.view, Array.getElem_toList]
    simp [Storage.cell, hi']

theorem getD_snapshot (ha : a.Settled (s.get a.storage)) (i : Nat) :
    (a.snapshot s).getD i 0 = (s.get a.storage).cell i := by
  rw [ha.snapshot_eq, List.getD_eq_getElem?_getD, Array.getElem?_toList, Storage.cell]

/-- The steps carried out one by one on the cells give what the array shows through them. -/
theorem snapshot_relayout (ha : a.Settled (s.get a.storage)) (ms : List Migration) :
    (a.relayout ms).snapshot s = ms.foldl carryOut (a.snapshot s) := by
  have hlength := length_foldl_carryOut (length_snapshot a s) ms
  refine List.ext_getElem (by rw [hlength, length_snapshot]) fun i hi hi' => ?_
  have heager := getD_foldl_carryOut (a.snapshot s) ms i
  rw [ha.getD_snapshot, List.getD_eq_getElem?_getD, List.getElem?_eq_getElem hi',
    Option.getD_some] at heager
  rw [heager, ← ha.view_relayout]
  simp [snapshot]

/-! ### Commits -/

/-- Beyond the cells of an array its steps keep nothing. -/
theorem and_maskAll_of_size_le (ha : a.Settled st) {i : Nat} (hi : (a.relayout ms).size ≤ i) :
    st.cell i &&& maskAll i ms = 0 := by
  have hlength : (ms.foldl carryOut st.cells.toList).length = (a.relayout ms).size :=
    length_foldl_carryOut ha.size ms
  have heager := getD_foldl_carryOut st.cells.toList ms i
  rw [List.getD_eq_getElem?_getD, List.getElem?_eq_none (hlength ▸ hi),
    List.getD_eq_getElem?_getD, Array.getElem?_toList] at heager
  exact heager.symm

/-- A commit leaves of each cell what the steps keep of it. -/
theorem cell_migrate_relayout (ha : a.Settled st) (ms : List Migration) (i : Nat) :
    ((a.relayout ms).migrate st).cell i = st.cell i &&& maskAll i ms := by
  rw [cell_migrate]
  split
  case isTrue => exact ha.view_relayout ms i
  case isFalse hi => exact (ha.and_maskAll_of_size_le (Nat.le_of_not_lt hi)).symm

/-- More steps on a committed array come down to the steps as one series. -/
theorem migrate_relayout_append (ha : a.Settled st) (ms ms' : List Migration) :
    ((a.relayout ms).settled.relayout ms').migrate ((a.relayout ms).migrate st) =
      (a.relayout (ms ++ ms')).migrate st := by
  have hshape := settled_relayout_append a ms ms'
  have hbitwidth := congrArg RegisterArray.bitwidth hshape
  have hsize := congrArg RegisterArray.size hshape
  refine Storage.ext_cell hbitwidth ?_ fun i => ?_
  · rw [size_cells_migrate, size_cells_migrate]
    exact hsize
  · rw [(settled_migrate (a.relayout ms) st).cell_migrate_relayout, ha.cell_migrate_relayout,
      ha.cell_migrate_relayout, maskAll_append, UInt64.and_assoc]

end Settled

/-- Blocks of steps, each with a commit after it. -/
def commitEach (x : RegisterArray × Store) (blocks : List (List Migration)) :
    RegisterArray × Store :=
  blocks.foldl (fun x block => (x.1.relayout block).committed x.2) x

namespace Settled

theorem committed_self (ha : a.Settled (s.get a.storage)) : a.committed s = (a, s) := by
  have hmigrate : a.migrate (s.get a.storage) = s.get a.storage := by
    refine Storage.ext_cell ha.bitwidth.symm ?_ fun i => ?_
    · rw [size_cells_migrate, ha.size]
    · have hcell := ha.cell_migrate_relayout [] i
      rwa [maskAll, and_widthMask_64] at hcell
  have hsettled : a.settled = a := by
    obtain ⟨_, _, _, _, pending, _⟩ := a
    cases (ha.pending : pending = [])
    rfl
  rw [committed, hmigrate, Store.set_get_self, hsettled]

/-- Wherever commits come in between, the steps give the same array and the same cells. -/
theorem commitEach_eq (hs : a.storage < s.size) (ha : a.Settled (s.get a.storage))
    (blocks : List (List Migration)) :
    commitEach (a, s) blocks = (a.relayout blocks.flatten).committed s := by
  induction blocks generalizing a s with
  | nil => exact ha.committed_self.symm
  | cons block blocks ih =>
    have hget : (s.set a.storage ((a.relayout block).migrate (s.get a.storage))).get a.storage =
        (a.relayout block).migrate (s.get a.storage) := Store.get_set_self hs
    have hstorage : (a.relayout block).settled.storage = a.storage := storage_relayout a block
    have hcommit : (a.relayout block).committed s = ((a.relayout block).settled,
        s.set a.storage ((a.relayout block).migrate (s.get a.storage))) := by
      rw [committed, storage_relayout]
    rw [commitEach, List.foldl_cons, hcommit, List.flatten_cons]
    refine (ih (a := (a.relayout block).settled) ?_ ?_).trans ?_
    · rw [hstorage, Store.size_set]
      exact hs
    · rw [hstorage, hget]
      exact settled_migrate _ _
    · rw [committed, committed, storage_relayout, storage_relayout, hstorage, hget,
        ha.migrate_relayout_append, settled_relayout_append, Store.set_set]

/-! ### Older arrays after a commit -/

/-- An array on the way to the committed one shows the cells as they are now, cut to its own
width: its steps were carried out on them once already. -/
theorem view_migrate_relayout (ha : a.Settled st) (ms ms' : List Migration) (i : Nat) :
    (a.relayout ms).view ((a.relayout (ms ++ ms')).migrate st) i =
      ((a.relayout (ms ++ ms')).migrate st).cell i &&& widthMask (a.relayout ms).bitwidth := by
  generalize hst : (a.relayout (ms ++ ms')).migrate st = st'
  have hfits : st'.Fits := hst ▸ fits_migrate (a.relayout (ms ++ ms')) st
  rw [RegisterArray.view, pending_relayout, ha.pending, List.nil_append,
    (foldl_replay_eq_and_maskAll i ms (st'.cell i, st'.bitwidth) (hfits i)).1, ← hst]
  congr 1
  rw [ha.cell_migrate_relayout, maskAll_append, UInt64.and_assoc,
    UInt64.and_comm (maskAll i ms), UInt64.and_assoc (maskAll i ms'), UInt64.and_self]

end Settled

/-- No step of an array goes below the array's own shape. -/
def Spares (b : RegisterArray) : Prop := ∀ m ∈ b.pending, match m with
  | .resize size => b.size ≤ size
  | .rewiden bitwidth => b.bitwidth ≤ bitwidth

/-- Such an array shows the cells of its storage, whatever they are, cut to its own width. -/
theorem view_of_spares (hb : b.Spares) (st : Storage) {i : Nat} (hi : i < b.size) :
    b.view st i = st.cell i &&& widthMask b.bitwidth := by
  unfold Spares at hb
  rw [view]
  generalize b.pending = ms at hb
  suffices h : ∀ cell : UInt64 × Nat, (ms.foldl (replay i) cell).1 &&& widthMask b.bitwidth =
      cell.1 &&& widthMask b.bitwidth from h _
  induction ms with
  | nil => exact fun _ => rfl
  | cons m ms ih =>
    intro cell
    obtain ⟨hm, hms⟩ := List.forall_mem_cons.mp hb
    rw [List.foldl_cons, ih hms]
    cases m with
    | resize n => rw [replay, if_neg (by have : b.size ≤ n := hm; omega)]
    | rewiden w =>
      have hw : b.bitwidth ≤ w := hm
      rw [replay]
      split
      · rw [and_widthMask, Nat.min_eq_right hw]
      · rfl

/-! ### Writes -/

/-- Some writes through an array, each of a value to an index; those beyond the array change
nothing. -/
def writeAll (a : RegisterArray) (s : Store) (writes : List (Nat × UInt64)) : Store :=
  writes.foldl (fun s x => (a.write s x.1 x.2).toOption.getD s) s

theorem alike_writeAll (a : RegisterArray) (s : Store) (writes : List (Nat × UInt64)) :
    s.Alike (a.writeAll s writes) := by
  induction writes generalizing s with
  | nil => exact Store.Alike.refl s
  | cons x writes ih =>
    refine Store.Alike.trans ?_ (ih _)
    show s.Alike ((a.write s x.1 x.2).toOption.getD s)
    cases h : a.write s x.1 x.2 with
    | ok s' => exact alike_write h
    | error e => exact Store.Alike.refl s

theorem Settled.snapshot_write {s' : Store} {i : Nat} {v : UInt64}
    (ha : a.Settled (s.get a.storage)) (h : a.write s i v = .ok s') :
    a.snapshot s' = (a.snapshot s).set i (v &&& widthMask a.bitwidth) := by
  have ha' := ha.alike ((alike_write h).get a.storage)
  obtain ⟨⟨-, hi⟩, rfl⟩ := write_eq_ok.mp h
  rw [ha'.snapshot_eq, ha.snapshot_eq, Store.get_set_self (Store.lt_size_of_lt_cells hi),
    Storage.setCell, Array.toList_setIfInBounds, ha.bitwidth, Nat.min_self]

/-- Writes set the cells of the array, each to a value that is cut to its width. -/
theorem Settled.snapshot_writeAll (ha : a.Settled (s.get a.storage))
    (writes : List (Nat × UInt64)) :
    a.snapshot (a.writeAll s writes) =
      writes.foldl (fun cells x => cells.set x.1 (x.2 &&& widthMask a.bitwidth))
        (a.snapshot s) := by
  induction writes generalizing s with
  | nil => rfl
  | cons x writes ih =>
    obtain ⟨i, v⟩ := x
    show a.snapshot (a.writeAll ((a.write s i v).toOption.getD s) writes) = _
    rw [List.foldl_cons]
    cases h : a.write s i v with
    | ok s' =>
      rw [← ha.snapshot_write h]
      exact ih (ha.alike ((alike_write h).get a.storage))
    | error e =>
      have hi : ¬i < a.size := fun hi => by
        obtain ⟨s', hs'⟩ := (ha.exists_write_iff (v := v)).mpr hi
        rw [h] at hs'
        cases hs'
      rw [List.set_eq_of_length_le (by rw [length_snapshot]; omega)]
      exact ih ha

/-! ### The whole of it -/

/-- A commit leaves what the array showed. -/
theorem snapshot_committed (hs : a.storage < s.size) :
    (a.committed s).1.snapshot (a.committed s).2 = a.snapshot s := by
  show (List.range a.size).map (a.settled.view ((s.set a.storage _).get a.storage)) = _
  rw [Store.get_set_self hs, snapshot]
  refine List.map_congr_left fun i hi => ?_
  rw [(settled_migrate a _).view, cell_migrate, if_pos (List.mem_range.mp hi)]

/-- An array without pending steps whose shape is that of its storage, after some writes through
it, and any steps.  Through them one sees the cells on which the steps were carried out one by
one.  A commit leaves just these cells, and no steps pending; it may come in as many parts as one
likes.  After it, older arrays see the same cells, cut to their own width: those none of whose
steps goes below their own shape, and those on the way to the committed one. -/
theorem lazy_view_eager (hs : a.storage < s.size) (ha : a.Settled (s.get a.storage))
    (writes : List (Nat × UInt64)) (ms : List Migration) :
    let now := a.writeAll s writes
    let cells := ms.foldl carryOut (a.snapshot now)
    let published := (a.relayout ms).committed now
    a.snapshot now = writes.foldl (fun cells x => cells.set x.1 (x.2 &&& widthMask a.bitwidth))
        (a.snapshot s) ∧
      (a.relayout ms).snapshot now = cells ∧
      (published.1.pending = [] ∧ published.1.snapshot published.2 = cells) ∧
      (∀ blocks : List (List Migration), blocks.flatten = ms →
        commitEach (a, now) blocks = published) ∧
      ∀ b : RegisterArray, b.storage = a.storage →
        (b.Spares ∨ ∃ done, done <+: ms ∧ b = a.relayout done) → ∀ i < b.size,
          b.read published.2 i = .ok (cells.getD i 0 &&& widthMask b.bitwidth) := by
  intro now cells published
  have halike := alike_writeAll a s writes
  have hs : a.storage < now.size := halike.size.symm ▸ hs
  have hnow : a.Settled (now.get a.storage) := ha.alike (halike.get a.storage)
  have hstorage := storage_relayout a ms
  have hsnapshot : (a.relayout ms).snapshot now = cells := hnow.snapshot_relayout ms
  refine ⟨ha.snapshot_writeAll writes, hsnapshot, ⟨rfl, ?_⟩, ?_, ?_⟩
  · exact (snapshot_committed (hstorage.symm ▸ hs)).trans hsnapshot
  · rintro blocks rfl
    exact hnow.commitEach_eq hs blocks
  · intro b hb holder i hi
    have hget : published.2.get b.storage = (a.relayout ms).migrate (now.get a.storage) := by
      show (now.set (a.relayout ms).storage _).get b.storage = _
      rw [hb, hstorage, Store.get_set_self hs]
    have hcell : ((a.relayout ms).migrate (now.get a.storage)).cell i = cells.getD i 0 := by
      rw [hnow.cell_migrate_relayout, getD_foldl_carryOut, hnow.getD_snapshot]
    rw [read, if_pos hi, hget, ← hcell]
    rcases holder with hspares | ⟨done, ⟨rest, rfl⟩, rfl⟩
    · rw [view_of_spares hspares _ hi]
    · rw [hnow.view_migrate_relayout]

/-- An array of two cells that was made smaller and larger again. -/
def bounced : RegisterArray :=
  { identity := ⟨"x", 0, none⟩, size := 2, bitwidth := 8, storage := 0
    pending := [.resize 1, .resize 2] }

/-- Two cells of eight bits, cut to one and filled up again, and then to four bits: the second
cell is lost, and the upper bits of the first. -/
theorem bounced_cells :
    let a := bounced.settled
    let now := a.writeAll ⟨[.zeros 2 8]⟩ [(0, 0xff), (1, 7)]
    let b := a.relayout [.resize 1, .resize 2, .rewiden 4]
    b.snapshot now = [0xf, 0] ∧ a.read (b.committed now).2 0 = .ok 0xf := by
  have ha : bounced.settled.Settled (Storage.zeros 2 8) := settled_zeros ⟨"x", 0, none⟩ 2 8 [] {}
  have h := lazy_view_eager (s := ⟨[.zeros 2 8]⟩) Nat.one_pos ha [(0, 0xff), (1, 7)]
    [.resize 1, .resize 2, .rewiden 4]
  obtain ⟨-, hsnapshot, -, -, holder⟩ := h
  exact ⟨hsnapshot, holder bounced.settled rfl (Or.inl nofun) 0 Nat.two_pos⟩

/-- An older array whose own steps cut a cell off goes on cutting it off: it shows a zero where
the committed array has the seven that was written after the steps were carried out. -/
theorem older_steps_cut_again : ∃ (a : RegisterArray) (s₁ s : Store),
    bounced.committed ⟨[.zeros 2 8]⟩ = (a, s₁) ∧ a.write s₁ 1 7 = .ok s ∧
      a.storage < s.size ∧ a.Settled (s.get a.storage) ∧ bounced.storage = a.storage ∧
      1 < bounced.size ∧ bounced.read ((a.relayout [.resize 3]).committed s).2 1 ≠
        .ok (([Migration.resize 3].foldl carryOut (a.snapshot s)).getD 1 0 &&&
          widthMask bounced.bitwidth) := by
  have hwrite : bounced.settled.write ⟨[⟨8, #[0, 0]⟩]⟩ 1 7 = .ok ⟨[⟨8, #[0, 7]⟩]⟩ := rfl
  have hsettled : bounced.settled.Settled (Storage.zeros 2 8) :=
    settled_zeros ⟨"x", 0, none⟩ 2 8 [] {}
  refine ⟨bounced.settled, ⟨[⟨8, #[0, 0]⟩]⟩, ⟨[⟨8, #[0, 7]⟩]⟩, by decide, hwrite, by decide,
    hsettled.alike ((alike_write hwrite).get 0), rfl, by decide, fun h => ?_⟩
  exact absurd (Except.ok.inj h) (by decide)

end RegisterArray

end LiveSwitch
