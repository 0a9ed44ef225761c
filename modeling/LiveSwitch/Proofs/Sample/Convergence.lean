import LiveSwitch.Proofs.Plan.Writing
import LiveSwitch.Proofs.Register.Rehash
import LiveSwitch.Proofs.Sample.Tracking
import LiveSwitch.Proofs.Switch.Reconfigure

/-!
# A rehashed filter converges

Two switches run the filter program with filters of different sizes and are fed the same packets.
Both end up with the same log, since what is logged does not depend on the size of the filter.
A plan that gives the first filter the size of the second and makes its marks anew from the log
then gives the cells of the second one: every address in the log has been counted, so all of them
are live, and the marks of a log are what the packets marked.

## Main definitions

* `BloomFilter.observed` — a switch that has loaded the program and seen some packets.
* `BloomFilter.rehashPlan` — the plan for another size of the filter.

## Main results

* `BloomFilter.marks_eq` — the marks of a rehash are the marks of the log.
* `BloomFilter.rehash_converges` — the filter after the plan is the filter of a fresh switch.
-/

namespace LiveSwitch

theorem Program.Shows.snapshot {g : Program} {s : Store} {v : Cells} (h : g.Shows s v)
    {a : RegisterArray} (ha : a ∈ g.arrays.objects) :
    a.snapshot s = (List.range a.size).map (v (nameOf a)) := by
  refine List.map_congr_left fun j hj => ?_
  rw [(h.settled a ha).view, h.cell a ha j (List.mem_range.mp hj)]

namespace Sample.BloomFilter

variable {m m' b : Nat}

/-! ### The plan -/

/-- The rehash of the filter from the log. -/
def rehashCommand : RehashCommand where
  target := .old filterArray
  recording := .old recordingArray
  lastPos := .old lastPosArray
  counting := .old countingArray
  countingHash := .crc32
  targetHashes := filterHashes
  reset := .old lastUpdateArray

/-- The plan that gives the filter `m` cells and makes its marks anew from the log. -/
def rehashPlan (m : Nat) : PlanText :=
  (PlanText.mk []).command (.resizeArray (.old filterArray) m) |>.command (.rehash rehashCommand)

theorem writable_rehashCommand : (Command.rehash rehashCommand).Writable := by
  have hwords : ∀ r ∈ [rehashCommand.target, rehashCommand.recording, rehashCommand.lastPos,
      rehashCommand.counting, rehashCommand.reset], Text.IsWord r.name.toList := by decide
  exact fun r hr => (hwords r hr).2

theorem writable_resize (hm : Register.validSize m) :
    (Command.resizeArray (.old filterArray) m).Writable :=
  ⟨writable_rehashCommand (.old filterArray) (by decide), hm⟩

/-- The text of the plan carries out its two commands. -/
theorem run_rehashPlan (hm : Register.validSize m) {s s' : Session}
    (h : [Command.resizeArray (.old filterArray) m, .rehash rehashCommand].foldlM Session.apply s =
      .ok s') : s.run (FileContent.ofText (rehashPlan m).text).planLines = (s', none) := by
  refine @Session.run_written
    [.command (.resizeArray (.old filterArray) m), .command (.rehash rehashCommand)]
    (List.cons_ne_nil _ _) ?_ _ _ h
  rw [List.forall_mem_cons, List.forall_mem_singleton]
  have hresize := writable_resize hm
  have hrehash := writable_rehashCommand
  exact ⟨fun c hc => Option.some.inj hc ▸ hresize, fun c hc => Option.some.inj hc ▸ hrehash⟩

/-- The file of a document. -/
def documentFile (m : Nat) : FileContent := .ofText (document m).compact

theorem ofFile_documentFile (hm : Register.validSize m) (s : Store) :
    Program.ofFile s (documentFile m) = .ok (program m s.size, loaded m s) := by
  rw [documentFile, FileContent.ofText, Program.ofFile, Program.ofBytes,
    Json.Value.ofBytes?_compact (plain_document hm)]
  exact ofDocument_document hm s

/-! ### What the rehash reads -/

/-- What the rehash reads from the arrays of the program. -/
def rehashInputs (b : Nat) : RehashInputs where
  recording := register recordingArray 1 recordingSize 32 (b + 1)
  lastPos := register lastPosArray 2 1 32 (b + 2)
  counting := register countingArray 3 countingSize 32 (b + 3)
  countingHash := .crc32
  targetHashes := filterHashes

section

variable {log : List UInt64} {v : Cells} {st : Store}

theorem liveValues_eq (hst : (program m b).Shows st v) (hv : Tracked m log v)
    (hlog : log.length ≤ recordingSize) : (rehashInputs b).liveValues st = log := by
  obtain ⟨hrecording, -⟩ := ObjectMap.mem_of_get? (array?_recording (m := m) (b := b))
  obtain ⟨hlastPos, -⟩ := ObjectMap.mem_of_get? (array?_lastPos (m := m) (b := b))
  have hposition : (rehashInputs b).position st = log.length := by
    rw [RehashInputs.position_eq (hst.settled _ hlastPos) Nat.one_ne_zero]
    refine (congrArg UInt64.toNat (hst.cell _ hlastPos 0 Nat.one_pos)).trans ?_
    exact (congrArg UInt64.toNat hv.lastPos).trans
      (toNat_ofNat (Nat.lt_of_le_of_lt hlog (by decide)))
  rw [RehashInputs.liveValues_eq (hst.settled _ hrecording), hposition]
  show (List.range (min log.length recordingSize)).map _ = log
  rw [Nat.min_eq_left hlog]
  refine List.ext_getElem (by simp) fun j hj hj' => ?_
  rw [List.getElem_map, List.getElem_range]
  refine (hst.cell _ hrecording j (Nat.lt_of_lt_of_le hj' hlog)).trans ?_
  refine (hv.recording j).trans ?_
  rw [List.getD_eq_getElem?_getD, List.getElem?_eq_getElem hj', Option.getD_some]

/-- Every address in the log has been counted. -/
theorem isCounted_of_mem (hst : (program m b).Shows st v) (hv : Tracked m log v)
    (hlog : log.length ≤ recordingSize) {x : UInt64} (hx : x ∈ log) :
    (rehashInputs b).isCounted st x = true := by
  obtain ⟨hcounting, -⟩ := ObjectMap.mem_of_get? (array?_counting (m := m) (b := b))
  have hslot : counterOf x < countingSize := Nat.mod_lt _ (by decide)
  have hcell : (st.get (b + 3)).cell (counterOf x) =
      .ofNat (log.countP fun y => counterOf y == counterOf x) :=
    (hst.cell _ hcounting _ hslot).trans (hv.counting _)
  -- the counter has counted this address, and not so often that it starts again at zero
  have hpos : 0 < log.countP fun y => counterOf y == counterOf x :=
    List.countP_pos_iff.mpr ⟨x, hx, beq_self_eq_true _⟩
  have hle : (log.countP fun y => counterOf y == counterOf x) ≤ log.length := List.countP_le_length
  rw [RehashInputs.isCounted_eq (hst.settled _ hcounting) (Nat.succ_ne_zero 31)]
  show ((st.get (b + 3)).cell (counterOf x) != 0) = true
  rw [hcell, bne_iff_ne]
  intro heq
  have hzero := congrArg UInt64.toNat heq
  rw [toNat_ofNat (Nat.lt_of_le_of_lt (hle.trans hlog) (by decide))] at hzero
  exact hpos.ne' hzero

/-- The marks of a rehash are the marks of the log. -/
theorem marks_eq (hst : (program m b).Shows st v) (hv : Tracked m log v)
    (hlog : log.length ≤ recordingSize) (m' : Nat) :
    RegisterArray.marks m' (rehashInputs b) st = log.flatMap (marksOf m') := by
  rw [RegisterArray.marks, liveValues_eq hst hv hlog,
    List.filter_eq_self.mpr fun x hx => isCounted_of_mem hst hv hlog hx]
  rfl

end

/-! ### What the plan makes of the program -/

/-- The filter with another size to come. -/
def resizedFilter (m b : Nat) : RegisterArray :=
  { register filterArray 0 m 1 b with pending := [.resize m] }

/-- The arrays after the plan, with the filter and the last update over storages from `n` on. -/
def rehashedArrays (m b n : Nat) : List RegisterArray :=
  [register filterArray 0 m 1 n, register recordingArray 1 recordingSize 32 (b + 1),
    register lastPosArray 2 1 32 (b + 2), register countingArray 3 countingSize 32 (b + 3),
    register lastUpdateArray 4 1 48 (n + 1)]

/-- The store after the plan. -/
def rehashedStore (m b : Nat) (st : Store) : Store :=
  (st.add ((resizedFilter m b).markedStorage (rehashInputs b) st)).add (.zeros 1 48)

/-- The program after the first command. -/
def resizedProgram (m m' b : Nat) : Program :=
  { program m b with
    arrays := { objects := resizedFilter m' b :: (arrays m b).tail, ids := ⟨5⟩ } }

/-- The program after the plan, with the filter and the last update over storages from `n` on. -/
def rehashedProgram (m m' b n : Nat) : Program :=
  ((resizedProgram m m' b).setArray filterArray (register filterArray 0 m' 1 n)).setArray
    lastUpdateArray (register lastUpdateArray 4 1 48 (n + 1))

theorem resizeArray_program (m m' b : Nat) :
    (program m b).resizeArray filterArray m' = .ok (resizedProgram m m' b) := by
  rw [Program.resizeArray_eq array?_filter]
  rfl

theorem names_nodup :
    [filterArray, recordingArray, lastPosArray, countingArray, lastUpdateArray].Nodup := by
  decide

theorem array?_resized {a : RegisterArray} (h : a ∈ resizedFilter m' b :: (arrays m b).tail) :
    (resizedProgram m m' b).array? (nameOf a) = some a := by
  exact ObjectMap.get?_of_mem (m := (resizedProgram m m' b).arrays) names_nodup h

theorem rehashed_resizedFilter (m b : Nat) (r : RehashInputs) (st : Store) :
    (resizedFilter m b).rehashed r st =
      (register filterArray 0 m 1 st.size, st.add ((resizedFilter m b).markedStorage r st)) :=
  RegisterArray.rehashed_eq (resizedFilter m b) r st

theorem cleared_register (name : String) (id : Int) (size bitwidth n : Nat) (st : Store) :
    (register name id size bitwidth n).cleared st =
      (register name id size bitwidth st.size, st.add (.zeros size bitwidth)) :=
  RegisterArray.zeros_eq ..

/-- The rehash puts the filter and the last update over new storages. -/
theorem rehashArray_resized (m m' b : Nat) (st : Store) :
    (resizedProgram m m' b).rehashArray st
        { target := filterArray, recording := recordingArray, lastPos := lastPosArray,
          counting := countingArray, countingHash := .crc32, targetHashes := filterHashes,
          reset := lastUpdateArray } =
      .ok (rehashedProgram m m' b st.size, rehashedStore m' b st) := by
  have harray := @array?_resized m m' b
  simp only [arrays, List.tail_cons, List.forall_mem_cons] at harray
  obtain ⟨htarget, hrecording, hlastPos, hcounting, hreset, -⟩ := harray
  refine (Program.rehashArray_eq htarget hrecording hlastPos hcounting hreset).trans ?_
  simp only [rehashed_resizedFilter, cleared_register, Store.size_add]
  rfl

theorem objects_rehashedProgram (m m' b n : Nat) :
    (rehashedProgram m m' b n).arrays.objects = rehashedArrays m' b n := by
  have hfilter : ((resizedProgram m m' b).setArray filterArray
      (register filterArray 0 m' 1 n)).arrays.objects =
        register filterArray 0 m' 1 n :: (arrays m b).tail :=
    @ObjectMap.objects_modify_append _ _ (resizedProgram m m' b).arrays names_nodup [] _
      (resizedFilter m' b) rfl _
  have hnodup : ((resizedProgram m m' b).setArray filterArray
      (register filterArray 0 m' 1 n)).arrays.names.Nodup := by
    rw [ObjectMap.names, hfilter]
    exact names_nodup
  exact @ObjectMap.objects_modify_append _ _ _ hnodup ((rehashedArrays m' b n).take 4) _
    (register lastUpdateArray 4 1 48 (b + 4)) hfilter _

theorem array?_rehashed {n : Nat} {a : RegisterArray} (h : a ∈ rehashedArrays m' b n) :
    (rehashedProgram m m' b n).array? (nameOf a) = some a := by
  have hobjects := objects_rehashedProgram m m' b n
  refine ObjectMap.get?_of_mem ?_ (hobjects ▸ h)
  rw [ObjectMap.names, hobjects]
  exact names_nodup

/-- The two commands of the plan, carried out on the program. -/
theorem apply_plan (m m' : Nat) {s : Session} (hs : s.candidate = program m b)
    (hnew : s.newArrays = []) :
    [Command.resizeArray (.old filterArray) m', .rehash rehashCommand].foldlM Session.apply s =
      .ok { s with
        candidate := rehashedProgram m m' b s.store.size
        store := rehashedStore m' b s.store
        applied := s.applied + 2 } := by
  have hresize := Session.apply_resizeArray hnew (hs ▸ resizeArray_program m m' b)
  have hrehash := Session.apply_rehash
    (s := { s with candidate := resizedProgram m m' b, applied := s.applied + 1 }) hnew
    (rehashArray_resized m m' b s.store)
  exact foldlM_cons_eq_ok.mpr ⟨_, hresize, foldlM_cons_eq_ok.mpr ⟨_, hrehash, rfl⟩⟩

/-! ### The cells after the plan -/

section

variable {log : List UInt64} {v : Cells} {st : Store}

theorem settled_register (name : String) (id : Int) (size bitwidth n : Nat) :
    (register name id size bitwidth n).Settled (.zeros size bitwidth) :=
  ⟨rfl, rfl, Storage.size_cells_zeros .., Storage.fits_zeros _ _⟩

/-- The cells after the plan: the filter is marked by the log, the last update is zero. -/
def rehashedCells (m : Nat) (log : List UInt64) (v : Cells) : Cells := fun name j =>
  if name = filterArray then if j ∈ log.flatMap (marksOf m) then 1 else 0
  else if name = lastUpdateArray then 0
  else v name j

/-- An array that the plan did not touch shows what it showed. -/
theorem get_rehashedStore (hst : (program m b).Shows st v) {a : RegisterArray}
    (ha : a ∈ (program m b).arrays.objects) (hsize : 0 < a.size) (m' : Nat) :
    (rehashedStore m' b st).get a.storage = st.get a.storage := by
  have hlt : a.storage < st.size :=
    Store.lt_size_of_lt_cells (i := 0) ((hst.settled a ha).size ▸ hsize)
  rw [rehashedStore, Store.get_add, Store.get_add, Store.size_add, if_neg (by omega),
    if_neg (by omega)]

/-- The filter after the plan is marked where the log marks it. -/
theorem cell_rehashedFilter (hst : (program m b).Shows st v) (hv : Tracked m log v)
    (hlog : log.length ≤ recordingSize) (m' : Nat) {j : Nat} (hj : j < m') :
    ((resizedFilter m' b).markedStorage (rehashInputs b) st).cell j =
      rehashedCells m' log v filterArray j := by
  have hmarks : j ∈ RegisterArray.marks m' (rehashInputs b) st ∧ j < m' ↔
      j ∈ log.flatMap (marksOf m') := by
    rw [marks_eq hst hv hlog]
    exact and_iff_left hj
  have hone : (1 : UInt64) &&& widthMask 1 = 1 := by decide
  have hcell : rehashedCells m' log v filterArray j =
      if j ∈ log.flatMap (marksOf m') then 1 else 0 := if_pos rfl
  refine (RegisterArray.cell_markedStorage ..).trans ?_
  exact (if_congr hmarks hone rfl).trans hcell.symm

theorem shows_rehashed (hst : (program m b).Shows st v) (hv : Tracked m log v)
    (hlog : log.length ≤ recordingSize) (m' : Nat) :
    (rehashedProgram m m' b st.size).Shows (rehashedStore m' b st) (rehashedCells m' log v) := by
  let marked := (resizedFilter m' b).markedStorage (rehashInputs b) st
  have hfilter : (rehashedStore m' b st).get st.size = marked := by
    rw [rehashedStore, Store.get_add, Store.size_add, if_neg (by omega), Store.get_add, if_pos rfl]
  have hcleared : (rehashedStore m' b st).get (st.size + 1) = .zeros 1 48 := by
    rw [rehashedStore, Store.get_add, Store.size_add, if_pos rfl]
  have hmarked : (register filterArray 0 m' 1 st.size).Settled marked := by
    have hsettled := (resizedFilter m' b).settled_rehashed (rehashInputs b) st
    rwa [rehashed_resizedFilter] at hsettled
  -- the arrays between the filter and the last update keep their storages
  have hkept : ∀ name id size bitwidth n, register name id size bitwidth n ∈ arrays m b →
      0 < size → name ≠ filterArray → name ≠ lastUpdateArray →
      (register name id size bitwidth n).Settled ((rehashedStore m' b st).get n) ∧ ∀ j, j < size →
        ((rehashedStore m' b st).get n).cell j = rehashedCells m' log v name j := by
    intro name id size bitwidth n ha hsize hne hne'
    have hget : (rehashedStore m' b st).get n = st.get n := get_rehashedStore hst ha hsize m'
    rw [hget]
    refine ⟨hst.settled _ ha, fun j hj => ?_⟩
    rw [rehashedCells, if_neg hne, if_neg hne']
    exact hst.cell _ ha j hj
  have hall : ∀ a ∈ rehashedArrays m' b st.size,
      a.Settled ((rehashedStore m' b st).get a.storage) ∧ ∀ j, j < a.size →
        ((rehashedStore m' b st).get a.storage).cell j = rehashedCells m' log v (nameOf a) j := by
    simp only [rehashedArrays, List.forall_mem_cons]
    refine ⟨⟨hfilter ▸ hmarked, fun j hj => ?_⟩,
      hkept _ _ _ _ _ (by simp [arrays]) (by decide) (by decide) (by decide),
      hkept _ _ _ _ _ (by simp [arrays]) (by decide) (by decide) (by decide),
      hkept _ _ _ _ _ (by simp [arrays]) (by decide) (by decide) (by decide),
      ⟨hcleared ▸ settled_register ..,
        fun j _ => (congrArg (Storage.cell · j) hcleared).trans (Storage.cell_zeros 1 48 j)⟩, nofun⟩
    exact (congrArg (Storage.cell · j) hfilter).trans (cell_rehashedFilter hst hv hlog m' hj)
  rw [← objects_rehashedProgram m] at hall
  exact ⟨fun a ha => (hall a ha).1, fun a ha => (hall a ha).2⟩

/-- The filter of a log does not depend on the size that the filter had before. -/
theorem rehashedCells_eq {v' : Cells} (hv : Tracked m log v) (hv' : Tracked m' log v') :
    (∀ j, rehashedCells m' log v filterArray j = v' filterArray j) ∧
    (∀ j, rehashedCells m' log v recordingArray j = v' recordingArray j) ∧
    (∀ j, j < 1 → rehashedCells m' log v lastPosArray j = v' lastPosArray j) ∧
    (∀ j, rehashedCells m' log v countingArray j = v' countingArray j) := by
  have hkept : ∀ name, name ≠ filterArray → name ≠ lastUpdateArray →
      ∀ j, rehashedCells m' log v name j = v name j := by
    intro name hfilter hupdate j
    rw [rehashedCells, if_neg hfilter, if_neg hupdate]
  refine ⟨fun j => ?_, fun j => ?_, fun j hj => ?_, fun j => ?_⟩
  · rw [rehashedCells, if_pos rfl, hv'.filter]
  · rw [hkept _ (by decide) (by decide), hv.recording, hv'.recording]
  · rw [hkept _ (by decide) (by decide), Nat.lt_one_iff.mp hj, hv.lastPos, hv'.lastPos]
  · rw [hkept _ (by decide) (by decide), hv.counting, hv'.counting]

end

/-! ### Two switches -/

/-- A switch with `n` contexts, one of which has loaded the program and seen some packets. -/
def observed (n cxt m : Nat) (packets : List Packet) : Except SwitchError Switch := do
  let (_, w) ← (Switch.create n).init cxt (documentFile m)
  feed cxt w packets

theorem exists_observed {n cxt : Nat} (hcxt : cxt < n) (hm : Register.validSize m)
    (packets : List Packet) :
    ∃ w c v, observed n cxt m packets = .ok w ∧ w.contexts[cxt]? = some c ∧
      c.active.program = program m 0 ∧ (program m 0).Shows w.store v ∧
      Tracked m (logOf packets) v := by
  have hc : (Switch.create n).contexts[cxt]? = some {} := by
    rw [Switch.create, List.getElem?_replicate, if_pos hcxt]
  have hload := Switch.init_eq hc (ofFile_documentFile hm {})
  let w : Switch := { Switch.create n with store := loaded m {} }.setActive cxt
    { number := 1, program := program m 0 }
  have hw : w.contexts[cxt]? = some { active := { number := 1, program := program m 0 } } := by
    show ((Switch.create n).contexts.modify cxt _)[cxt]? = _
    rw [List.getElem?_modify_eq, hc]
    rfl
  obtain ⟨st, v, hfeed, hst, hv⟩ :=
    exists_feed hm (Switch.active_eq hw) rfl (shows_loaded m {}) packets
  refine ⟨{ w with store := st }, _, v, ?_, hw, rfl, hst, hv⟩
  rw [observed, hload]
  exact hfeed

/-- The plan is carried out, and the arrays then show the cells of the log. -/
theorem exists_rehashed {w : Switch} {cxt : Nat} {c : Context} {log : List UInt64} {v : Cells}
    (hm' : Register.validSize m') (hc : w.contexts[cxt]? = some c)
    (hprogram : c.active.program = program m 0) (hst : (program m 0).Shows w.store v)
    (hv : Tracked m log v) (hlog : log.length ≤ recordingSize) :
    ∃ w', w.applyPlan cxt (documentFile m') (.ofText (rehashPlan m').text) = (.success, w') ∧
      ∀ a ∈ rehashedArrays m' 0 w.store.size, w'.registerSnapshot cxt (nameOf a) =
        .ok ((List.range a.size).map (rehashedCells m' log v (nameOf a))) := by
  have hfinal := shows_rehashed hst hv hlog m'
  have hrun := run_rehashPlan hm' (apply_plan m m'
    (s := { candidate := c.active.program, store := w.store, donor := program m' 0 }) hprogram rfl)
  have hplan := Switch.applyPlan_eq hc (ofFile_documentFile hm' {}) hrun
  -- no array is left with a change to come, so that publishing the program adds none
  rw [Program.commitArrays_eq_self fun a ha => (hfinal.settled a ha).pending] at hplan
  refine ⟨_, hplan, fun a ha => ?_⟩
  have harray := array?_rehashed (m := m) ha
  refine (Switch.registerSnapshot_eq
    (c := c.publish (rehashedProgram m m' 0 w.store.size) 2) ?_ harray).trans ?_
  · rw [List.getElem?_modify_eq, hc]
    rfl
  · rw [hfinal.snapshot ((objects_rehashedProgram m m' 0 _).symm ▸ ha)]

/-- After the plan the filter, the log, its end and the counters are those of a switch that has
run the program with the other size from the start, and the last update is zero. -/
theorem rehash_converges {n cxt : Nat} (hcxt : cxt < n) (hm : Register.validSize m)
    (hm' : Register.validSize m') (packets : List Packet) :
    ∃ w w' w'', observed n cxt m packets = .ok w ∧ observed n cxt m' packets = .ok w' ∧
      w.applyPlan cxt (documentFile m') (.ofText (rehashPlan m').text) = (.success, w'') ∧
      (∀ name ∈ [filterArray, recordingArray, lastPosArray, countingArray],
        ∃ cells, w''.registerSnapshot cxt name = .ok cells ∧
          w'.registerSnapshot cxt name = .ok cells) ∧
      w''.registerSnapshot cxt lastUpdateArray = .ok [0] := by
  obtain ⟨w, c, v, hw, hc, hprogram, hst, hv⟩ := exists_observed hcxt hm packets
  obtain ⟨w', c', v', hw', hc', hprogram', hst', hv'⟩ := exists_observed hcxt hm' packets
  obtain ⟨w'', hplan, hshown⟩ :=
    exists_rehashed hm' hc hprogram hst hv (length_logOf_le packets)
  have hfresh : ∀ a ∈ arrays m' 0, w'.registerSnapshot cxt (nameOf a) =
      .ok ((List.range a.size).map (v' (nameOf a))) := by
    intro a ha
    have harray := array?_of_mem ha
    rw [Switch.registerSnapshot_eq hc' (hprogram' ▸ harray), hst'.snapshot ha]
  simp only [rehashedArrays, arrays, List.forall_mem_cons] at hshown hfresh
  obtain ⟨hfilter, hrecording, hlastPos, hcounting, hlastUpdate, -⟩ := hshown
  obtain ⟨hfilter', hrecording', hlastPos', hcounting', -, -⟩ := hfresh
  -- both switches have the same log, and its cells do not depend on the size before
  obtain ⟨efilter, erecording, elastPos, ecounting⟩ := rehashedCells_eq hv hv'
  have hsame : ∀ {size : Nat} {f f' : Nat → UInt64}, (∀ j, j < size → f j = f' j) →
      (.ok ((List.range size).map f') : Except SwitchError (List UInt64)) =
        .ok ((List.range size).map f) := fun h =>
    congrArg Except.ok (List.map_congr_left fun j hj => (h j (List.mem_range.mp hj)).symm)
  have hzero : rehashedCells m' (logOf packets) v lastUpdateArray 0 = 0 := by
    rw [rehashedCells, if_neg (by decide), if_pos rfl]
  refine ⟨w, w', w'', hw, hw', hplan, ?_, ?_⟩
  · simp only [List.forall_mem_cons]
    exact ⟨⟨_, hfilter, hfilter'.trans (hsame fun j _ => efilter j)⟩,
      ⟨_, hrecording, hrecording'.trans (hsame fun j _ => erecording j)⟩,
      ⟨_, hlastPos, hlastPos'.trans (hsame elastPos)⟩,
      ⟨_, hcounting, hcounting'.trans (hsame fun j _ => ecounting j)⟩, List.forall_mem_nil _⟩
  · exact hlastUpdate.trans (congrArg (fun x => Except.ok [x]) hzero)

/-- Growing the filter from 16 to 64 cells after one packet. -/
theorem rehash_converges_growing :
    ∃ w w' w'', observed 1 0 16 [{}] = .ok w ∧ observed 1 0 64 [{}] = .ok w' ∧
      w.applyPlan 0 (documentFile 64) (.ofText (rehashPlan 64).text) = (.success, w'') ∧
      (∀ name ∈ [filterArray, recordingArray, lastPosArray, countingArray],
        ∃ cells, w''.registerSnapshot 0 name = .ok cells ∧
          w'.registerSnapshot 0 name = .ok cells) ∧
      w''.registerSnapshot 0 lastUpdateArray = .ok [0] :=
  @rehash_converges 16 64 1 0 Nat.one_pos rfl rfl [{}]

end Sample.BloomFilter

end LiveSwitch
