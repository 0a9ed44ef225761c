import LiveSwitch.Proofs.Hash.Packing
import LiveSwitch.Proofs.Plan.Layouts
import LiveSwitch.Proofs.Register.Rehash

/-!
# What a rehash computes

A rehash reads five arrays through whatever is pending on them, all of them as they are before,
and it may be given one array in several places.  The target then holds a one just in the cells
that recorded values mark, the reset array holds zeros, and nothing else changes: both stand over
storages of their own.

## Main definitions

* `Program.RehashSpec.Marks` — a cell of the target is marked by a recorded value.
* `RegisterArray.StandsFor` — an array of the same name, id and shape.

## Main results

* `RegisterArray.mem_marks_iff` — the marks that a rehash sets are these.
* `Program.rehashArray_spec` — what a rehash makes of a program and its storages.
-/

namespace LiveSwitch

open Hash

/-! ### Reads -/

theorem RegisterArray.read_eq_ok {a : RegisterArray} {s : Store} {i : Nat} {v : UInt64} :
    a.read s i = .ok v ↔ i < a.size ∧ a.view (s.get a.storage) i = v := by
  rw [read]
  split
  case isTrue hi => rw [Except.ok.injEq, and_iff_right hi]
  case isFalse hi => exact iff_of_false (fun h => by cases h) fun h => hi h.1

theorem RegisterArray.toNat_view_lt (a : RegisterArray) (st : Storage) (i : Nat) :
    (a.view st i).toNat < 2 ^ a.bitwidth := by
  rw [view, toNat_and_widthMask]
  refine Nat.lt_of_lt_of_le (Nat.mod_lt _ (Nat.two_pow_pos _)) ?_
  exact Nat.pow_le_pow_right Nat.two_pos (Nat.min_le_left ..)

/-- Reads depend on the storage of the array only. -/
theorem RegisterArray.read_congr {a : RegisterArray} {s s' : Store}
    (h : s'.get a.storage = s.get a.storage) (i : Nat) : a.read s' i = a.read s i := by
  rw [read, read, h]

/-- What a rehash makes of its target reads as its marks, also where storages came after it. -/
theorem RegisterArray.read_rehashed (a : RegisterArray) (r : RehashInputs) {s s' : Store}
    (h : (a.rehashed r s).2.Extends s') {j : Nat} (hj : j < a.size) :
    (a.rehashed r s).1.read s' j = .ok ((a.markedStorage r s).cell j) := by
  have hsettled := a.settled_rehashed r s
  rw [rehashed_eq] at h hsettled ⊢
  have hget : s'.get s.size = a.markedStorage r s := by
    rw [h.get_eq s.size (by rw [Store.size_add]; exact Nat.lt_succ_self _)]
    rw [Store.get_add, if_pos rfl]
  exact hsettled.read_of_get hget hj

/-- A cleared array reads zero. -/
theorem RegisterArray.read_cleared (a : RegisterArray) (s : Store) {j : Nat} (hj : j < a.size) :
    (a.cleared s).1.read (a.cleared s).2 j = .ok 0 := by
  have hsettled := settled_zeros a.identity a.size a.bitwidth a.extra s
  rw [cleared]
  rw [zeros_eq] at hsettled ⊢
  have hget : (s.add (.zeros a.size a.bitwidth)).get s.size = .zeros a.size a.bitwidth := by
    rw [Store.get_add, if_pos rfl]
  exact (hsettled.read_of_get hget hj).trans (congrArg Except.ok (Storage.cell_zeros ..))

/-! ### Marks -/

/-- A recorded value marks cell `j` of the target: it is one of those that the last position says
are there, its counter is not zero, and one of the three hashes of its bytes, the highest byte in
front, leads to `j`. -/
def Program.RehashSpec.Marks (r : RehashSpec) (s : Store)
    (target recording lastPos counting : RegisterArray) (j : Nat) : Prop :=
  ∃ i v position count, lastPos.read s 0 = .ok position ∧
    i < min position.toNat recording.size ∧ recording.read s i = .ok v ∧
    let bytes := bigEndian ((recording.bitwidth + 7) / 8) v.toNat
    counting.read s ((r.countingHash.compute bytes).toNat % counting.size) = .ok count ∧
    count ≠ 0 ∧ ∃ h ∈ r.targetHashes.toList, j = (h.compute bytes).toNat % target.size

/-- The inputs of a rehash of a program. -/
def Program.RehashSpec.inputs (r : RehashSpec) (recording lastPos counting : RegisterArray) :
    RehashInputs :=
  { recording, lastPos, counting, countingHash := r.countingHash, targetHashes := r.targetHashes }

namespace RehashInputs

variable {r : RehashInputs} {s : Store}

theorem mem_liveValues {v p : UInt64} (hp : r.lastPos.read s 0 = .ok p) :
    v ∈ r.liveValues s ↔
      ∃ i, i < min p.toNat r.recording.size ∧ r.recording.read s i = .ok v := by
  obtain ⟨hsize, hview⟩ := RegisterArray.read_eq_ok.mp hp
  have hposition : r.position s = p.toNat := by
    rw [position, if_neg (by omega), hview]
  rw [liveValues, hposition, List.mem_map]
  refine exists_congr fun i => ?_
  rw [List.mem_range, RegisterArray.read_eq_ok]
  constructor
  · rintro ⟨hi, hv⟩
    exact ⟨hi, Nat.lt_of_lt_of_le hi (Nat.min_le_right ..), hv⟩
  · rintro ⟨hi, -, hv⟩
    exact ⟨hi, hv⟩

theorem isCounted_iff (hsize : 0 < r.counting.size) (v : UInt64) :
    r.isCounted s v = true ↔ ∃ count, r.counting.read s
      (slotIndex r.countingHash (r.message v) r.counting.size) = .ok count ∧ count ≠ 0 := by
  have hslot : slotIndex r.countingHash (r.message v) r.counting.size < r.counting.size :=
    Nat.mod_lt _ hsize
  rw [isCounted, Bool.or_eq_true, beq_iff_eq, bne_iff_ne]
  constructor
  · rintro (h | h)
    · omega
    · exact ⟨_, RegisterArray.read_eq_ok.mpr ⟨hslot, rfl⟩, h⟩
  · rintro ⟨count, hread, hcount⟩
    rw [(RegisterArray.read_eq_ok.mp hread).2]
    exact Or.inr hcount

/-- The bytes of a recorded value are those of the number, the highest in front. -/
theorem message_eq_bigEndian {v : UInt64} {i : Nat} (hv : r.recording.read s i = .ok v) :
    r.message v = bigEndian ((r.recording.bitwidth + 7) / 8) v.toNat := by
  rw [message, packFields_singleton]
  rw [← (RegisterArray.read_eq_ok.mp hv).2]
  exact r.recording.toNat_view_lt _ i

end RehashInputs

open RehashInputs in
/-- The cells that a rehash marks. -/
theorem RegisterArray.mem_marks_iff {r : Program.RehashSpec} {s : Store}
    {target recording lastPos counting : RegisterArray} (hlastPos : 0 < lastPos.size)
    (hcounting : 0 < counting.size) {j : Nat} :
    j ∈ marks target.size (r.inputs recording lastPos counting) s ↔
      r.Marks s target recording lastPos counting j := by
  set inputs := r.inputs recording lastPos counting with hinputs
  have hposition : lastPos.read s 0 = .ok (lastPos.view (s.get lastPos.storage) 0) :=
    read_eq_ok.mpr ⟨hlastPos, rfl⟩
  rw [marks, List.mem_flatMap]
  simp only [List.mem_filter, List.mem_map]
  constructor
  · rintro ⟨v, ⟨hlive, hcounted⟩, h, hh, rfl⟩
    obtain ⟨i, hi, hv⟩ := (mem_liveValues (r := inputs) hposition).mp hlive
    obtain ⟨count, hread, hcount⟩ := (isCounted_iff hcounting v).mp hcounted
    rw [message_eq_bigEndian hv] at hread
    refine ⟨i, v, _, count, hposition, hi, hv, hread, hcount, h, hh, ?_⟩
    rw [message_eq_bigEndian hv]
    rfl
  · rintro ⟨i, v, position, count, hp, hi, hv, hread, hcount, h, hh, rfl⟩
    have hmessage := message_eq_bigEndian (r := inputs) hv
    refine ⟨v, ⟨(mem_liveValues hp).mpr ⟨i, hi, hv⟩, ?_⟩, h, hh, ?_⟩
    · refine (isCounted_iff (r := inputs) hcounting v).mpr ⟨count, ?_, hcount⟩
      rw [hmessage]
      exact hread
    · rw [hmessage]
      rfl

/-- The cells of a rehashed target: a one where a recorded value marks it. -/
theorem RegisterArray.cell_markedStorage_marks (r : Program.RehashSpec) (s : Store)
    {target lastPos counting : RegisterArray} (recording : RegisterArray)
    (hwidth : 1 ≤ target.bitwidth) (hlastPos : 0 < lastPos.size) (hcounting : 0 < counting.size)
    {j : Nat} (hj : j < target.size) :
    (r.Marks s target recording lastPos counting j →
      (target.markedStorage (r.inputs recording lastPos counting) s).cell j = 1) ∧
    (¬r.Marks s target recording lastPos counting j →
      (target.markedStorage (r.inputs recording lastPos counting) s).cell j = 0) := by
  have hone : (1 : UInt64) &&& widthMask target.bitwidth = 1 := by
    refine and_widthMask_eq_self (Nat.one_lt_two_pow ?_)
    omega
  rw [cell_markedStorage, hone, ← mem_marks_iff hlastPos hcounting]
  exact ⟨fun hmark => if_pos ⟨hmark, hj⟩, fun hmark => if_neg fun h => hmark h.1⟩

/-! ### The program after a rehash -/

/-- An array stands for another one of the same name, id and shape. -/
structure RegisterArray.StandsFor (a' a : RegisterArray) : Prop where
  identity : a'.identity = a.identity
  size : a'.size = a.size
  bitwidth : a'.bitwidth = a.bitwidth
  extra : a'.extra = a.extra

namespace Program

variable {g : Program} {s : Store} {r : RehashSpec}
  {target recording lastPos counting reset : RegisterArray}

/-- A look-up after two arrays gave way in turn: what gave way is told by its name, as two names
may lead to one array. -/
theorem array?_setArray_setArray (hg : g.arrays.Consistent) {x y : String}
    {a b a' b' : RegisterArray} (ha : g.array? x = some a) (hb : g.array? y = some b) (ha' : a'.identity = a.identity)
    (hb' : b'.identity = b.identity) (z : String) :
    ((g.setArray x a').setArray y b').array? z = (g.array? z).map fun c =>
      if nameOf c = nameOf b then b' else if nameOf c = nameOf a then a' else c := by
  obtain ⟨b₁, hb₁, hidentity⟩ := exists_reset hg ha hb ha'
  have hname : nameOf b₁ = nameOf b := congrArg Identity.name hidentity
  rw [array?_setArray (consistent_setArray hg ha ha') hb₁ (hb'.trans hidentity.symm),
    array?_setArray hg ha ha', Option.map_map]
  refine congrFun (congrArg Option.map (funext fun c => ?_)) _
  rw [Function.comp_apply, hname]
  by_cases hc : nameOf c = nameOf a
  · rw [if_pos hc, hc, show nameOf a' = nameOf a from congrArg Identity.name ha']
  · rw [if_neg hc]

/-- A rehash succeeds when its arrays are there.  The target has its marks, unless it is cleared
itself; the reset array is cleared; other arrays and everything else stay, and so do all storages
that are there. -/
theorem rehashArray_spec (hg : g.arrays.Consistent) (htarget : g.array? r.target = some target)
    (hrecording : g.array? r.recording = some recording)
    (hlastPos : g.array? r.lastPos = some lastPos)
    (hcounting : g.array? r.counting = some counting) (hreset : g.array? r.reset = some reset)
    (hwidth : 1 ≤ target.bitwidth) (hposition : 0 < lastPos.size) (hcounters : 0 < counting.size) :
    ∃ g' s' target' reset', g.rehashArray s r = .ok (g', s') ∧
      g'.array? r.target = some target' ∧ g'.array? r.reset = some reset' ∧
      target'.StandsFor target ∧ reset'.StandsFor reset ∧
      (target ≠ reset → ∀ j < target.size,
        (r.Marks s target recording lastPos counting j → target'.read s' j = .ok 1) ∧
        (¬r.Marks s target recording lastPos counting j → target'.read s' j = .ok 0)) ∧
      (∀ j < reset.size, reset'.read s' j = .ok 0) ∧
      (∀ x, g.array? x ≠ some target → g.array? x ≠ some reset → g'.array? x = g.array? x) ∧
      g' = { g with arrays := { g.arrays with objects := g'.arrays.objects } } ∧
      s.Extends s' := by
  set inputs := r.inputs recording lastPos counting with hinputs
  set target' := (target.rehashed inputs s).1 with htarget'
  set marked := (target.rehashed inputs s).2 with hmarked
  set reset' := (reset.cleared marked).1 with hreset'
  have hrun : g.rehashArray s r = .ok ((g.setArray r.target target').setArray r.reset reset',
      (reset.cleared marked).2) :=
    rehashArray_eq htarget hrecording hlastPos hcounting hreset
  have hstands : target'.StandsFor target := by
    rw [htarget', RegisterArray.rehashed_eq]
    exact ⟨rfl, rfl, rfl, rfl⟩
  have hstands' : reset'.StandsFor reset := by
    rw [hreset', RegisterArray.cleared, RegisterArray.zeros_eq]
    exact ⟨rfl, rfl, rfl, rfl⟩
  have hmarked_extends : s.Extends marked := by
    rw [hmarked, RegisterArray.rehashed_eq]
    exact s.extends_add _
  have hextends : marked.Extends (reset.cleared marked).2 := by
    rw [RegisterArray.cleared, RegisterArray.zeros_eq]
    exact marked.extends_add _
  have hlookup := array?_setArray_setArray hg htarget hreset hstands.identity hstands'.identity
  obtain ⟨b₁, hb₁, -⟩ := exists_reset hg htarget hreset hstands.identity
  have hname {a b : RegisterArray} {x y : String} (ha : g.array? x = some a)
      (hb : g.array? y = some b) : nameOf a = nameOf b ↔ a = b :=
    ⟨ObjectMap.eq_of_name_eq hg.names (mem_of_array? ha) (mem_of_array? hb), congrArg nameOf⟩
  -- where both are the same, the cleared array is the one that stays
  refine ⟨_, _, if target = reset then reset' else target', reset', hrun, ?_, ?_, ?_,
    hstands', fun hne j hj => ?_, fun j hj => reset.read_cleared marked hj, fun x hx hx' => ?_,
    by rw [setArray_eq hb₁, setArray_eq htarget]; rfl, hmarked_extends.trans hextends⟩
  · rw [hlookup, htarget, Option.map_some, if_pos rfl]
    simp only [hname htarget hreset]
  · rw [hlookup, hreset, Option.map_some, if_pos rfl]
  · split
    case isTrue heq =>
      rw [heq]
      exact hstands'
    case isFalse => exact hstands
  · obtain ⟨hmark, hnomark⟩ := RegisterArray.cell_markedStorage_marks r s recording
      hwidth hposition hcounters hj
    rw [if_neg hne, target.read_rehashed inputs hextends hj]
    exact ⟨fun h => congrArg Except.ok (hmark h), fun h => congrArg Except.ok (hnomark h)⟩
  · rw [hlookup]
    cases hc : g.array? x with
    | none => rfl
    | some c =>
      have hne : c ≠ target := fun heq => hx (heq ▸ hc)
      have hne' : c ≠ reset := fun heq => hx' (heq ▸ hc)
      rw [Option.map_some, if_neg (mt (hname hc hreset).mp hne'),
        if_neg (mt (hname hc htarget).mp hne)]

end Program

end LiveSwitch
