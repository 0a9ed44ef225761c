import LiveSwitch.Proofs.Register.Storage

/-!
# Pending steps

What an array shows of a cell through its pending steps: as long as no step cuts the cell
off, the value is cut to the smallest width on the way.

## Main definitions

* `cut` — a value cut to several widths.
* `Migration.width?` — the width that a step gives.
* `RegisterArray.migrated`, `RegisterArray.relayout` — an array with more pending steps.

## Main results

* `cut_widthMask` — cutting to each of several widths is cutting to the smallest one.
* `RegisterArray.view_relayout` — what an array shows through the steps of a plan.
-/

namespace LiveSwitch

/-- A value cut to each of some widths in turn. -/
def cut (c : UInt64) (widths : List Nat) : UInt64 :=
  widths.foldl (fun c w => c &&& widthMask w) c

theorem cut_append (c : UInt64) (widths widths' : List Nat) :
    cut c (widths ++ widths') = cut (cut c widths) widths' :=
  List.foldl_append

/-- Cutting to each of several widths is cutting to the smallest one. -/
theorem cut_widthMask (v : UInt64) (width : Nat) (widths : List Nat) :
    cut (v &&& widthMask width) widths = v &&& widthMask (widths.foldl min width) := by
  induction widths generalizing v width with
  | nil => rfl
  | cons w widths ih =>
    rw [List.foldl_cons, ← ih, ← and_widthMask]
    rfl

/-- Cutting to all of some widths leaves a value that fits the last one. -/
theorem cut_and_getLast? (v : UInt64) (widths : List Nat) {w : Nat}
    (hw : widths.getLast? = some w) : cut v widths &&& widthMask w = cut v widths := by
  obtain ⟨init, rfl⟩ := List.getLast?_eq_some_iff.mp hw
  rw [cut_append]
  show _ &&& widthMask w &&& widthMask w = _ &&& widthMask w
  rw [and_widthMask, Nat.min_self]

namespace Migration

/-- The width that a step gives the cells. -/
def width? : Migration → Option Nat
  | resize _ => none
  | rewiden width => some width

/-- A step that does not cut a cell off cuts its value to the width it gives. -/
theorem replay_fits {i : Nat} {cell : UInt64 × Nat} {m : Migration}
    (hcell : cell.1 &&& widthMask cell.2 = cell.1) (hm : ∀ n, m = .resize n → i < n) :
    (m.replay i cell).1 = cut cell.1 m.width?.toList ∧
      (m.replay i cell).1 &&& widthMask (m.replay i cell).2 = (m.replay i cell).1 := by
  cases m with
  | resize n =>
    have hi := hm n rfl
    rw [replay, if_neg (by omega)]
    exact ⟨rfl, hcell⟩
  | rewiden w =>
    rw [replay]
    split
    case isTrue hlt =>
      refine ⟨rfl, ?_⟩
      rw [and_widthMask, Nat.min_self]
    case isFalse hge =>
      -- a width that is no smaller cuts nothing
      have hw : cell.1 &&& widthMask w = cell.1 := and_widthMask_of_le (by omega) hcell
      exact ⟨hw.symm, hw⟩

/-- Steps that do not cut a cell off cut its value to each of the widths they give. -/
theorem foldl_replay {i : Nat} {cell : UInt64 × Nat} {ms : List Migration}
    (hcell : cell.1 &&& widthMask cell.2 = cell.1) (hms : ∀ n, Migration.resize n ∈ ms → i < n) :
    (ms.foldl (replay i) cell).1 = cut cell.1 (ms.filterMap width?) := by
  induction ms generalizing cell with
  | nil => rfl
  | cons m ms ih =>
    obtain ⟨hvalue, hfits⟩ := replay_fits hcell fun n hn => hms n (hn ▸ List.mem_cons_self)
    rw [List.foldl_cons, ih hfits fun n hn => hms n (List.mem_cons_of_mem m hn), hvalue]
    cases m <;> rfl

end Migration

namespace RegisterArray

/-- An array with one more pending step. -/
def migrated (a : RegisterArray) : Migration → RegisterArray
  | .resize size => a.resized size
  | .rewiden width => a.rewidened width

/-- An array with more pending steps. -/
def relayout (a : RegisterArray) (ms : List Migration) : RegisterArray := ms.foldl migrated a

variable {a : RegisterArray} {ms : List Migration}

@[simp] theorem relayout_nil (a : RegisterArray) : a.relayout [] = a := rfl

theorem relayout_append (a : RegisterArray) (ms ms' : List Migration) :
    a.relayout (ms ++ ms') = (a.relayout ms).relayout ms' :=
  List.foldl_append

@[simp] theorem storage_relayout (a : RegisterArray) (ms : List Migration) :
    (a.relayout ms).storage = a.storage := by
  induction ms generalizing a with
  | nil => rfl
  | cons m ms ih =>
    rw [relayout, List.foldl_cons]
    exact (ih _).trans (by cases m <;> rfl)

theorem pending_relayout (a : RegisterArray) (ms : List Migration) :
    (a.relayout ms).pending = a.pending ++ ms := by
  induction ms generalizing a with
  | nil => exact (List.append_nil _).symm
  | cons m ms ih =>
    rw [relayout, List.foldl_cons]
    refine (ih _).trans ?_
    cases m <;> exact List.append_assoc ..

theorem lt_size_relayout {i : Nat} (hi : i < a.size)
    (hms : ∀ n, Migration.resize n ∈ ms → i < n) : i < (a.relayout ms).size := by
  induction ms generalizing a with
  | nil => exact hi
  | cons m ms ih =>
    rw [relayout, List.foldl_cons]
    refine ih ?_ fun n hn => hms n (List.mem_cons_of_mem m hn)
    cases m with
    | resize n => exact hms n List.mem_cons_self
    | rewiden w => exact hi

/-- The width of an array is the last one that its steps gave it. -/
theorem bitwidth_relayout (a : RegisterArray) (ms : List Migration) :
    (a.relayout ms).bitwidth = ((ms.filterMap Migration.width?).getLast?).getD a.bitwidth := by
  induction ms generalizing a with
  | nil => rfl
  | cons m ms ih =>
    rw [relayout, List.foldl_cons]
    refine (ih _).trans ?_
    cases m with
    | resize n => rfl
    | rewiden w =>
      have hwidths : (Migration.rewiden w :: ms).filterMap Migration.width? =
          w :: ms.filterMap Migration.width? := rfl
      rw [hwidths, List.getLast?_cons]
      rfl

/-- What an array shows through steps that do not cut the cell off: the value of the cell, cut
to each of the widths on the way. -/
theorem view_relayout {st : Storage} {i : Nat} (ha : a.Settled st)
    (hms : ∀ n, Migration.resize n ∈ ms → i < n) :
    (a.relayout ms).view st i =
      cut (st.cell i) (ms.filterMap Migration.width?) := by
  rw [view, pending_relayout, ha.pending, List.nil_append,
    Migration.foldl_replay (ha.fits i) hms, bitwidth_relayout]
  cases hlast : (ms.filterMap Migration.width?).getLast? with
  | none =>
    -- no step gave a width, so the array has that of its storage, which the cell fits
    rw [List.getLast?_eq_none_iff.mp hlast, Option.getD_none, ← ha.bitwidth]
    exact ha.fits i
  | some w => exact cut_and_getLast? (st.cell i) _ hlast

end RegisterArray

end LiveSwitch
