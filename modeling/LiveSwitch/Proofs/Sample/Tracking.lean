import LiveSwitch.Proofs.Program.Effects
import LiveSwitch.Proofs.Sample.Loading
import LiveSwitch.Register.Rehash
import LiveSwitch.Switch.Basic

/-!
# Tracking packets

The register cells of the filter program are a function of its log alone: the log determines its
own end, how often each counter was counted up and which cells of the filter are marked.  A
packet appends its source address to the log as long as there is room, and fails without changing
a cell when there is none.

## Main definitions

* `BloomFilter.Tracked` — the register cells that belong to a log.
* `BloomFilter.logOf` — the log after some packets.

## Main results

* `BloomFilter.exists_block_track` — one packet with room in the log.
* `BloomFilter.exists_feed` — any packets.
-/

namespace LiveSwitch.Sample.BloomFilter

variable {m b : Nat}

/-! ### Addresses -/

/-- An address as the log holds it. -/
def recorded (x : UInt64) : UInt64 := x &&& widthMask 32

/-- The bytes of an address that are hashed. -/
def message (x : UInt64) : List UInt8 := Hash.packFields [(x, 32)]

/-- Bits of an address beyond the 32 that the log holds are not hashed. -/
theorem message_recorded (x : UInt64) : message (recorded x) = message x := by
  have hbits : Hash.fieldBits (recorded x) 32 = Hash.fieldBits x 32 := by
    refine List.map_congr_left fun i hi => ?_
    have hlt : i < 32 := by simpa using hi
    rw [recorded, UInt64.toNat_and, Nat.testBit_and, testBit_widthMask]
    simp [hlt]
  rw [message, Hash.packFields, List.flatMap_singleton, hbits]
  rfl

/-- The counter of an address. -/
def counterOf (x : UInt64) : Nat := slotIndex .crc32 (message x) countingSize

theorem counterOf_recorded (x : UInt64) : counterOf (recorded x) = counterOf x := by
  rw [counterOf, message_recorded, counterOf]

/-- The hashes of the filter. -/
def filterHashes : HashTriple := ⟨.crc16, .identity, .csum16⟩

/-- The cells, of `m` many, that an address marks. -/
def marksOf (m : Nat) (x : UInt64) : List Nat :=
  filterHashes.toList.map fun h => slotIndex h (message x) m

theorem marksOf_recorded (m : Nat) (x : UInt64) : marksOf m (recorded x) = marksOf m x := by
  rw [marksOf, message_recorded, marksOf]

/-! ### The program -/

theorem array?_of_mem {a : RegisterArray} (h : a ∈ arrays m b) :
    (program m b).array? (nameOf a) = some a := by
  refine ObjectMap.get?_of_mem ?_ h
  show [filterArray, recordingArray, lastPosArray, countingArray, lastUpdateArray].Nodup
  decide

theorem apart (m b : Nat) : (program m b).Apart where
  strays := rfl
  names := by
    show [filterArray, recordingArray, lastPosArray, countingArray, lastUpdateArray].Nodup
    decide
  storages := by
    show [b, b + 1, b + 2, b + 3, b + 4].Nodup
    simp

theorem array?_filter :
    (program m b).array? filterArray = some (register filterArray 0 m 1 b) :=
  array?_of_mem (a := register filterArray 0 m 1 b) (by simp [arrays])

theorem array?_recording : (program m b).array? recordingArray =
    some (register recordingArray 1 recordingSize 32 (b + 1)) :=
  array?_of_mem (a := register recordingArray 1 recordingSize 32 (b + 1)) (by simp [arrays])

theorem array?_lastPos :
    (program m b).array? lastPosArray = some (register lastPosArray 2 1 32 (b + 2)) :=
  array?_of_mem (a := register lastPosArray 2 1 32 (b + 2)) (by simp [arrays])

theorem array?_counting : (program m b).array? countingArray =
    some (register countingArray 3 countingSize 32 (b + 3)) :=
  array?_of_mem (a := register countingArray 3 countingSize 32 (b + 3)) (by simp [arrays])

theorem array?_lastUpdate :
    (program m b).array? lastUpdateArray = some (register lastUpdateArray 4 1 48 (b + 4)) :=
  array?_of_mem (a := register lastUpdateArray 4 1 48 (b + 4)) (by simp [arrays])

/-- The fields that the program uses for itself. -/
def metaFields : List String := [posField, slotField, countField, bitField]

theorem ne_srcField : ∀ f ∈ metaFields, srcField ≠ f := by
  decide +kernel

theorem toNat_ofNat {n : Nat} (hn : n < 2 ^ 32) : (UInt64.ofNat n).toNat = n := by
  rw [UInt64.toNat_ofNat', Nat.mod_eq_of_lt (by omega)]

theorem ofNat_and_widthMask {n : Nat} (hn : n < 2 ^ 32) :
    UInt64.ofNat n &&& widthMask 32 = .ofNat n := by
  refine and_widthMask_eq_self ?_
  rw [toNat_ofNat hn]
  exact hn

theorem mask_eq : ∀ f ∈ metaFields,
    layout.mask f = widthMask 32 := by
  decide +kernel

theorem cutField_ofNat {f : String} (hf : f ∈ metaFields)
    {n : Nat} (hn : n < 2 ^ 32) : (program m b).cutField f (.ofNat n) = .ofNat n := by
  show UInt64.ofNat n &&& layout.mask f = _
  rw [mask_eq f hf, ofNat_and_widthMask hn]

/-- The slot that a hash of the source address names, as the program computes it. -/
theorem cutField_slot {f : String} (hf : f ∈ metaFields)
    {n : Nat} (hpos : 0 < n) (hn : n < 2 ^ 32) (h : HashAlgorithm) (x : UInt64) :
    (program m b).cutField f (0 + h.compute (message x) % .ofNat n) =
      .ofNat (slotIndex h (message x) n) := by
  have hslot : (0 : UInt64) + h.compute (message x) % .ofNat n =
      .ofNat (slotIndex h (message x) n) := by
    have hlt := Nat.lt_trans (Nat.mod_lt (h.compute (message x)).toNat hpos) hn
    rw [← UInt64.toNat_inj, slotIndex, UInt64.zero_add, UInt64.toNat_mod, toNat_ofNat hn,
      toNat_ofNat hlt]
  rw [hslot]
  exact cutField_ofNat hf (Nat.lt_trans (Nat.mod_lt _ hpos) hn)

/-! ### The parts of the action -/

section

variable {p : Packet} {v : Cells} {n : Nat}

theorem eval_setField (p : Packet) (f : String) (x : UInt64) :
    (Expr.field f).eval (p.setField f x) [] = .ok x := by
  rw [Expr.eval, Packet.field_setField, if_pos rfl]

theorem field_src_setField {f : String} (hf : f ∈ metaFields)
    (p : Packet) (x : UInt64) : (p.setField f x).field srcField = p.field srcField := by
  rw [Packet.field_setField, if_neg (ne_srcField f hf)]

theorem add_one_ofNat (n : Nat) : (.ofNat n : UInt64) + 1 = .ofNat (n + 1) :=
  (UInt64.ofNat_add n 1).symm

theorem eval_src_setField {f : String} (hf : f ∈ metaFields)
    (p : Packet) (x : UInt64) :
    (Expr.field srcField).eval (p.setField f x) [] = .ok (p.field srcField) :=
  congrArg Except.ok (field_src_setField hf p x)

theorem exists_block_logSteps (hv : v lastPosArray 0 = .ofNat n) (hn : n < recordingSize) :
    ∃ p', (program m b).Block logSteps p v p'
        ((v.set recordingArray n (recorded (p.field srcField))).set lastPosArray 0
          (.ofNat (n + 1))) ∧
      p'.field srcField = p.field srcField := by
  have hpos : posField ∈ metaFields := by simp [metaFields]
  have hlt : n + 1 < 2 ^ 32 := Nat.lt_of_le_of_lt hn (by decide)
  have hread : (program m b).cutField posField (v lastPosArray 0) = .ofNat n := by
    rw [hv, cutField_ofNat hpos (by omega)]
  let p₁ := p.setField posField (.ofNat n)
  have hadd : (program m b).cutField posField (p₁.field posField + 1) = .ofNat (n + 1) := by
    rw [Packet.field_setField, if_pos rfl, add_one_ofNat, cutField_ofNat hpos hlt]
  -- the end of the log is read, the address is written there, and the end moves on
  refine ⟨p₁.setField posField (.ofNat (n + 1)), ?_, ?_⟩
  · refine .registerRead (apart m b) array?_lastPos rfl rfl Nat.one_pos hread ?_
    refine .registerWrite (apart m b) array?_recording (eval_setField ..)
      (eval_src_setField hpos ..) (toNat_ofNat (by omega)) hn rfl ?_
    refine .add rfl hadd ?_
    exact .registerWrite (apart m b) array?_lastPos rfl (eval_setField ..) rfl Nat.one_pos
      (ofNat_and_widthMask hlt) .nil
  · rw [field_src_setField hpos, field_src_setField hpos]

theorem exists_block_countSteps (hv : v countingArray (counterOf (p.field srcField)) = .ofNat n)
    (hn : n < recordingSize) :
    ∃ p', (program m b).Block countSteps p v p'
        (v.set countingArray (counterOf (p.field srcField)) (.ofNat (n + 1))) ∧
      p'.field srcField = p.field srcField := by
  have hslot : slotField ∈ metaFields := by simp [metaFields]
  have hcount : countField ∈ metaFields := by simp [metaFields]
  have hlt : n + 1 < 2 ^ 32 := Nat.lt_of_le_of_lt hn (by decide)
  let k := counterOf (p.field srcField)
  have hk : k < countingSize := Nat.mod_lt _ (by decide)
  have htoNat : (UInt64.ofNat k).toNat = k := toNat_ofNat (Nat.lt_trans hk (by decide))
  have hhash : (program m b).cutField slotField
      (0 + (hash "counting_hash" 0 .crc32).compute p % .ofNat countingSize) = .ofNat k :=
    cutField_slot hslot (by decide) (by decide) .crc32 (p.field srcField)
  have hread : (program m b).cutField countField (v countingArray k) = .ofNat n := by
    rw [hv, cutField_ofNat hcount (by omega)]
  let p₁ := (p.setField slotField (.ofNat k)).setField countField (.ofNat n)
  have hadd : (program m b).cutField countField (p₁.field countField + 1) =
      .ofNat (n + 1) := by
    rw [Packet.field_setField, if_pos rfl, add_one_ofNat, cutField_ofNat hcount hlt]
  have hne : slotField ≠ countField := by decide +kernel
  have hindex : (Expr.field slotField).eval (p₁.setField countField (.ofNat (n + 1))) [] =
      .ok (.ofNat k) := by
    rw [Expr.eval, Packet.field_setField, if_neg hne, Packet.field_setField, if_neg hne,
      Packet.field_setField, if_pos rfl]
  -- the counter of the slot is read, counted up and written back
  refine ⟨p₁.setField countField (.ofNat (n + 1)), ?_, ?_⟩
  · refine .hashOffset (c := hash "counting_hash" 0 .crc32) rfl rfl rfl (by decide) hhash ?_
    refine .registerRead (apart m b) array?_counting (eval_setField ..) htoNat hk hread ?_
    refine .add rfl hadd ?_
    exact .registerWrite (apart m b) array?_counting hindex (eval_setField ..) htoNat hk
      (ofNat_and_widthMask hlt) .nil
  · rw [field_src_setField hcount, field_src_setField hcount, field_src_setField hslot]

theorem exists_block_markSteps (hm : Register.validSize m) {k : Nat} {c : Calculation}
    (hc : (program m b).calculation? (filterHash k) = some c) {h : HashAlgorithm}
    (hh : c.compute p = h.compute (message (p.field srcField))) :
    ∃ p', (program m b).Block (markSteps m k) p v p'
        (v.set filterArray (slotIndex h (message (p.field srcField)) m) 1) ∧
      p'.field srcField = p.field srcField := by
  have hbit : bitField ∈ metaFields := by simp [metaFields]
  obtain ⟨hpos, hle⟩ := Register.validSize_iff.mp hm
  have hlt : m < 2 ^ 32 := Nat.lt_of_le_of_lt hle (by decide)
  have hhash : (program m b).cutField bitField (0 + c.compute p % .ofNat m) =
      .ofNat (slotIndex h (message (p.field srcField)) m) := by
    rw [hh]
    exact cutField_slot hbit hpos hlt h (p.field srcField)
  have hslot : slotIndex h (message (p.field srcField)) m < m := Nat.mod_lt _ hpos
  have hone : (1 : UInt64) &&& widthMask 1 = 1 := by decide +kernel
  have hne : UInt64.ofNat m ≠ 0 := by
    intro heq
    have := congrArg UInt64.toNat heq
    rw [toNat_ofNat hlt] at this
    exact hpos.ne' this
  refine ⟨p.setField bitField (.ofNat (slotIndex h (message (p.field srcField)) m)), ?_,
    field_src_setField hbit ..⟩
  exact .hashOffset hc rfl rfl hne hhash (.registerWrite (apart m b) array?_filter
    (eval_setField ..) rfl (toNat_ofNat (Nat.lt_trans hslot hlt)) hslot hone .nil)

theorem exists_block_marks (hm : Register.validSize m) (p : Packet) (v : Cells) :
    ∃ p', (program m b).Block ((List.range 3).flatMap (markSteps m)) p v p'
        ((marksOf m (p.field srcField)).foldl (fun v k => v.set filterArray k 1) v) ∧
      p'.field srcField = p.field srcField := by
  obtain ⟨p₁, h₁, hsrc₁⟩ := exists_block_markSteps (b := b) (v := v) hm (p := p) (k := 0)
    (c := hash (filterHash 0) 1 .crc16) rfl rfl
  obtain ⟨p₂, h₂, hsrc₂⟩ := exists_block_markSteps (b := b) hm (p := p₁) (k := 1)
    (c := hash (filterHash 1) 2 .identity) rfl rfl
  obtain ⟨p₃, h₃, hsrc₃⟩ := exists_block_markSteps (b := b) hm (p := p₂) (k := 2)
    (c := hash (filterHash 2) 3 .csum16) rfl rfl
  rw [hsrc₂, hsrc₁] at h₃
  rw [hsrc₁] at h₂
  exact ⟨p₃, h₁.append (h₂.append h₃), hsrc₃.trans (hsrc₂.trans hsrc₁)⟩

theorem block_stampSteps : (program m b).Block stampSteps p v p
    (v.set lastUpdateArray 0 (p.field srcField &&& widthMask 48)) :=
  .registerWrite (apart m b) array?_lastUpdate rfl rfl rfl Nat.one_pos rfl .nil

end

/-! ### The cells of a log -/

/-- The register cells that belong to a log, for a filter of `m` cells. -/
structure Tracked (m : Nat) (log : List UInt64) (v : Cells) : Prop where
  recording : ∀ j, v recordingArray j = log.getD j 0
  lastPos : v lastPosArray 0 = .ofNat log.length
  counting : ∀ j, v countingArray j = .ofNat (log.countP fun x => counterOf x == j)
  filter : ∀ j, v filterArray j = if j ∈ log.flatMap (marksOf m) then 1 else 0

theorem tracked_nil (m : Nat) : Tracked m [] fun _ _ => 0 where
  recording _ := rfl
  lastPos := rfl
  counting _ := rfl
  filter _ := rfl

/-- The cells after an address was recorded in a log of `n`, counted `c + 1` times and marked. -/
def afterPacket (m : Nat) (v : Cells) (x : UInt64) (n c : Nat) : Cells :=
  let logged := (v.set recordingArray n (recorded x)).set lastPosArray 0 (.ofNat (n + 1))
  let counted := logged.set countingArray (counterOf x) (.ofNat (c + 1))
  let marked := (marksOf m x).foldl (fun v k => v.set filterArray k 1) counted
  marked.set lastUpdateArray 0 (x &&& widthMask 48)

theorem Tracked.append {log : List UInt64} {v : Cells} (h : Tracked m log v) (x : UInt64) :
    Tracked m (log ++ [recorded x])
      (afterPacket m v x log.length (log.countP fun y => counterOf y == counterOf x)) where
  recording j := by
    rw [afterPacket, Cells.set_of_ne, Cells.foldl_set_of_ne, Cells.set_of_ne, Cells.set_of_ne,
      Cells.set_self, h.recording]
    · rcases Nat.lt_trichotomy j log.length with hj | rfl | hj
      · simp [hj, hj.ne, List.getElem?_append_left]
      · simp
      · simp [hj.ne', hj.le, List.getElem?_append_right, show j - log.length ≠ 0 by omega]
    all_goals decide
  lastPos := by
    rw [afterPacket, Cells.set_of_ne, Cells.foldl_set_of_ne, Cells.set_of_ne, Cells.set_self,
      if_pos rfl, List.length_append, List.length_singleton]
    all_goals decide
  counting j := by
    rw [afterPacket, Cells.set_of_ne, Cells.foldl_set_of_ne, Cells.set_self, Cells.set_of_ne,
      Cells.set_of_ne, h.counting, List.countP_append, List.countP_singleton, counterOf_recorded]
    · by_cases hj : j = counterOf x
      · simp [hj]
      · simp [hj, Ne.symm hj]
    all_goals decide
  filter j := by
    rw [afterPacket, Cells.set_of_ne, Cells.foldl_set_self, Cells.set_of_ne,
      Cells.set_of_ne, Cells.set_of_ne, h.filter, List.flatMap_append, List.flatMap_singleton,
      marksOf_recorded]
    · by_cases hj : j ∈ marksOf m x <;> simp [hj]
    all_goals decide

/-- A packet appends its source address to a log that has room. -/
theorem exists_block_track (hm : Register.validSize m) {log : List UInt64} {v : Cells}
    (h : Tracked m log v) (hroom : log.length < recordingSize) (p : Packet) :
    ∃ p' v', (program m b).Block (trackSteps m) p v p' v' ∧
      Tracked m (log ++ [recorded (p.field srcField)]) v' := by
  have hcount : (log.countP fun y => counterOf y == counterOf (p.field srcField)) < recordingSize :=
    Nat.lt_of_le_of_lt List.countP_le_length hroom
  obtain ⟨p₁, h₁, hsrc₁⟩ := exists_block_logSteps (m := m) (b := b) (p := p) h.lastPos hroom
  have hcounting : ((v.set recordingArray log.length (recorded (p.field srcField))).set
      lastPosArray 0 (.ofNat (log.length + 1))) countingArray (counterOf (p₁.field srcField)) =
        .ofNat (log.countP fun y => counterOf y == counterOf (p.field srcField)) := by
    rw [hsrc₁, Cells.set_of_ne, Cells.set_of_ne, h.counting]
    all_goals decide
  obtain ⟨p₂, h₂, hsrc₂⟩ := exists_block_countSteps (m := m) (b := b) hcounting hcount
  obtain ⟨p₃, h₃, hsrc₃⟩ := exists_block_marks (b := b) hm p₂ _
  refine ⟨p₃, _, ((h₁.append h₂).append h₃).append block_stampSteps, ?_⟩
  rw [hsrc₃, hsrc₂, hsrc₁]
  exact h.append (p.field srcField)

theorem write_ne_ok {a : RegisterArray} {st : Store} (h : a.Settled (st.get a.storage)) {j : Nat}
    (hj : a.size ≤ j) (x : UInt64) : ∃ e, a.write st j x = .error e := by
  cases hwrite : a.write st j x with
  | error e => exact ⟨e, rfl⟩
  | ok st' => exact absurd (h.exists_write_iff.mp ⟨st', hwrite⟩) (Nat.not_lt.mpr hj)

/-! ### A packet -/

/-- The effect of the action that tracks a packet. -/
def trackRun (m b : Nat) : Exec Unit :=
  (trackSteps m).forM (Primitive.run (program m b) [])

theorem tableRun_eq : table.run (program m b) = (do trackRun m b; return (false, none)) :=
  rfl

theorem pipelineRun_eq : pipeline.run (program m b) = (do
    trackRun m b
    return [.table trackTable false]) := by
  have hvisit : (Node.table table).visit (program m b) =
      (do trackRun m b; return (.table trackTable false, none)) := by
    rw [Node.visit, tableRun_eq, bind_assoc]
    rfl
  have hwalk : pipeline.run (program m b) = (do
      let x ← (Node.table table).visit (program m b)
      return x.1 :: (← pipeline.walk (program m b) (maxSteps - 1) trackTable x.2)) :=
    Pipeline.walk_succ (n := .table table) rfl (maxSteps - 1) "init_table"
  rw [hwalk, hvisit, bind_assoc]
  rfl

theorem process_eq : (program m b).process = (do
    trackRun m b
    return [.table trackTable false]) := by
  show (do return (← [pipeline].mapM (Pipeline.run (program m b))).flatten : Exec _) = _
  rw [List.mapM_cons, List.mapM_nil, pipelineRun_eq]
  simp only [bind_assoc, pure_bind]
  rfl

/-- A full log takes no further address, and no cell is changed. -/
theorem exists_error_trackRun {log : List UInt64} {v : Cells} (h : Tracked m log v)
    (hfull : log.length = recordingSize) {st : Store} (hst : (program m b).Shows st v)
    (p : Packet) : ∃ e p', (trackRun m b).run ⟨p, st⟩ = .error e ⟨p', st⟩ := by
  have hpos : posField ∈ metaFields := by simp [metaFields]
  have hread : (program m b).cutField posField (v lastPosArray 0) = .ofNat recordingSize := by
    rw [h.lastPos, hfull, cutField_ofNat hpos (by decide)]
  let p₁ := p.setField posField (.ofNat recordingSize)
  -- the read goes through, and the write to the log is the first step that fails
  have hfirst : ((Primitive.registerRead posField lastPosArray (.const 0)).run (program m b)
      []).run ⟨p, st⟩ = .ok () ⟨p₁, st⟩ := by
    rw [Primitive.run_registerRead (i := 0) array?_lastPos rfl
      (hst.read (apart m b) array?_lastPos Nat.one_pos), UInt64.toNat_zero, hread]
  obtain ⟨hmem, -⟩ := ObjectMap.mem_of_get? (array?_recording (m := m) (b := b))
  obtain ⟨e, hwrite⟩ := write_ne_ok (hst.settled _ hmem) (j := recordingSize) (Nat.le_refl _)
    (p.field srcField)
  have hsecond : ((Primitive.registerWrite recordingArray (.field posField)
      (.field srcField)).run (program m b) []).run ⟨p₁, st⟩ = .error (.index e) ⟨p₁, st⟩ :=
    Primitive.run_registerWrite_error array?_recording (eval_setField ..)
      (eval_src_setField hpos ..) hwrite
  exact ⟨_, p₁, Exec.bind_eq_error.mpr (.inr ⟨_, _, hfirst, Exec.bind_eq_error.mpr (.inl hsecond)⟩)⟩

/-- The log after a packet. -/
def logAfter (log : List UInt64) (p : Packet) : List UInt64 :=
  if log.length < recordingSize then log ++ [recorded (p.field srcField)] else log

theorem exists_process (hm : Register.validSize m) {log : List UInt64} {v : Cells} {st : Store}
    (hst : (program m b).Shows st v) (h : Tracked m log v) (hlog : log.length ≤ recordingSize)
    {g : Generation} (hg : g.program = program m b) (p : Packet) :
    ∃ v', (program m b).Shows (g.process p st).2 v' ∧ Tracked m (logAfter log p) v' := by
  rw [Generation.process, hg, process_eq, logAfter]
  rcases Nat.lt_or_eq_of_le hlog with hroom | hfull
  · obtain ⟨p', v', hblock, hv'⟩ := exists_block_track (b := b) hm h hroom p
    obtain ⟨st', hrun, hst'⟩ := hblock st hst
    have hall : (do trackRun m b; return [Step.table trackTable false] : Exec _).run ⟨p, st⟩ =
        .ok [.table trackTable false] ⟨p', st'⟩ := Exec.bind_eq_ok.mpr ⟨_, _, hrun, rfl⟩
    rw [hall, if_pos hroom]
    exact ⟨v', hst', hv'⟩
  · obtain ⟨e, p', hrun⟩ := exists_error_trackRun h hfull hst p
    have hall : (do trackRun m b; return [Step.table trackTable false] : Exec _).run ⟨p, st⟩ =
        .error e ⟨p', st⟩ := Exec.bind_eq_error.mpr (.inl hrun)
    rw [hall, if_neg (Nat.not_lt.mpr hfull.ge)]
    exact ⟨v, hst, h⟩

/-! ### Any packets -/

/-- The log after some packets. -/
def logOf (packets : List Packet) : List UInt64 := packets.foldl logAfter []

theorem length_logOf_le (packets : List Packet) : (logOf packets).length ≤ recordingSize := by
  induction packets using List.reverseRecOn with
  | nil => exact Nat.zero_le _
  | append_singleton packets p ih =>
    rw [logOf, List.foldl_append, List.foldl_cons, List.foldl_nil, ← logOf, logAfter]
    split
    · rw [List.length_append, List.length_singleton]
      omega
    · exact ih

theorem shows_loaded (m : Nat) (st : Store) :
    (program m st.size).Shows (loaded m st) fun _ _ => 0 := by
  have hget : ∀ a ∈ arrays m st.size, (loaded m st).get a.storage = .zeros a.size a.bitwidth := by
    simp [arrays, loaded, arrayRecords, arrayRecord, register, Store.get_add, Nat.add_assoc]
  have hpending : ∀ a ∈ arrays m st.size, a.pending = [] := by simp [arrays, register]
  refine ⟨fun a ha => ⟨hpending a ha, ?_, ?_, ?_⟩, fun a ha j _ => ?_⟩
  · rw [hget a ha]
    rfl
  · rw [hget a ha, Storage.size_cells_zeros]
  · rw [hget a ha]
    exact Storage.fits_zeros _ _
  · rw [hget a ha, Storage.cell_zeros]

/-- Runs packets through the active generation of a context, one after another. -/
def feed (cxt : Nat) (w : Switch) (packets : List Packet) : Except SwitchError Switch :=
  packets.foldlM (fun w p => (w.process cxt p).map Prod.snd) w

/-- Whatever packets come, the cells are those of the log. -/
theorem exists_feed (hm : Register.validSize m) {w : Switch} {cxt : Nat} {g : Generation}
    (hactive : w.active cxt = .ok g) (hg : g.program = program m b)
    (hw : (program m b).Shows w.store fun _ _ => 0) (packets : List Packet) :
    ∃ st v, feed cxt w packets = .ok { w with store := st } ∧ (program m b).Shows st v ∧
      Tracked m (logOf packets) v := by
  induction packets using List.reverseRecOn with
  | nil => exact ⟨w.store, _, rfl, hw, tracked_nil m⟩
  | append_singleton packets p ih =>
    obtain ⟨st, v, hfeed, hst, hv⟩ := ih
    obtain ⟨v', hst', hv'⟩ := exists_process hm hst hv (length_logOf_le packets) hg p
    have hstep : ({ w with store := st } : Switch).process cxt p =
        .ok ((g.process p st).1, { w with store := (g.process p st).2 }) := by
      show (do let g ← w.active cxt; _ : Except SwitchError (Outcome × Switch)) = _
      rw [hactive]
      rfl
    refine ⟨(g.process p st).2, v', ?_, hst', ?_⟩
    · rw [feed, List.foldlM_append, ← feed, hfeed]
      show feed cxt { w with store := st } [p] = _
      rw [feed, List.foldlM_cons, hstep]
      rfl
    · rw [logOf, List.foldl_append]
      exact hv'

end LiveSwitch.Sample.BloomFilter
