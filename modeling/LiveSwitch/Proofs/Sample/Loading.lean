import LiveSwitch.Proofs.Document.Loading
import LiveSwitch.Proofs.ObjectMap
import LiveSwitch.Proofs.Sample.Document

/-!
# Loading the filter program

The program that is loaded from the document of the filter program is known in full: its arrays
of zeros stand next to each other in the store, and its one table runs the action that tracks a
packet.

## Main definitions

* `BloomFilter.trackSteps` — the primitives that track a packet.
* `BloomFilter.program` — the program, with its register cells from a given storage on.
* `BloomFilter.loaded` — the store with the cells of the program.

## Main results

* `BloomFilter.ofDocument_document` — the program and the store after loading the document.
-/

namespace LiveSwitch

open Json

/-! ### Adding register arrays -/

namespace Loader

/-- The loader after a register array that gets along with the others was added. -/
def withArray (l : Loader) (r : ArrayRecord) : Loader :=
  let a : RegisterArray :=
    { identity := r.identity, size := r.size, bitwidth := r.bitwidth, storage := l.store.size,
      extra := r.extra }
  { l with
    program := { l.program with
      arrays := { l.program.arrays with
        objects := l.program.arrays.objects ++ [a]
        ids := l.program.arrays.ids.observe r.identity.id } }
    store := l.store.add (.zeros r.size r.bitwidth) }

theorem foldlM_addArray {rs : List ArrayRecord} {l : Loader} (hl : l.program.arrays.strays = [])
    (hvalid : ∀ r ∈ rs, Register.validSize r.size ∧ Register.validBitwidth r.bitwidth)
    (hbefore : (l.program.arrays.objects.map Named.identity ++
      rs.map ArrayRecord.identity).Pairwise Identity.Before) :
    rs.foldlM addArray l = .ok (rs.foldl withArray l) := by
  induction rs generalizing l with
  | nil => rfl
  | cons r rs ih =>
    obtain ⟨hr, hrs⟩ := List.forall_mem_cons.mp hvalid
    have hprefix : ∀ a ∈ l.program.arrays.objects, a.identity.Before r.identity := fun a ha =>
      (List.pairwise_append.mp hbefore).2.2 _ (List.mem_map_of_mem ha) _ List.mem_cons_self
    have hadd : l.addArray r = .ok (l.withArray r) := by
      refine addArray_eq_ok.mpr ⟨_, hr.1, hr.2, ObjectMap.insert_eq_append hl hprefix, ?_⟩
      rw [RegisterArray.zeros_eq]
      rfl
    have hnext : ((l.withArray r).program.arrays.objects.map Named.identity ++
        rs.map ArrayRecord.identity).Pairwise Identity.Before := by
      rw [withArray, List.map_append, List.append_assoc]
      exact hbefore
    exact foldlM_cons_eq_ok.mpr ⟨_, hadd, ih hl hrs hnext⟩

end Loader

namespace Sample.BloomFilter

open Operand Loader

/-! ### The action -/

/-- The source address of a packet. -/
def srcField : String := fullName "ipv4" "srcAddr"

/-- The position in the log. -/
def posField : String := fullName "meta" "pos"

/-- The counter of the packet. -/
def slotField : String := fullName "meta" "cidx"

/-- The count of that counter. -/
def countField : String := fullName "meta" "cnt"

/-- The cell of the filter that is marked next. -/
def bitField : String := fullName "meta" "bit"

/-- Appends the source address to the log. -/
def logSteps : List Primitive :=
  [.registerRead posField lastPosArray (.const 0),
    .registerWrite recordingArray (.field posField) (.field srcField),
    .add posField (.const 1),
    .registerWrite lastPosArray (.const 0) (.field posField)]

/-- Counts up the counter of the source address. -/
def countSteps : List Primitive :=
  [.hashOffset slotField (.const 0) "counting_hash" (.const (.ofNat countingSize)),
    .registerRead countField countingArray (.field slotField),
    .add countField (.const 1),
    .registerWrite countingArray (.field slotField) (.field countField)]

/-- Marks the cell that the `k`-th hash names. -/
def markSteps (m k : Nat) : List Primitive :=
  [.hashOffset bitField (.const 0) (filterHash k) (.const (.ofNat m)),
    .registerWrite filterArray (.field bitField) (.const 1)]

/-- Stamps the register of the last update. -/
def stampSteps : List Primitive := [.registerWrite lastUpdateArray (.const 0) (.field srcField)]

/-- The primitives that track a packet. -/
def trackSteps (m : Nat) : List Primitive :=
  logSteps ++ countSteps ++ (List.range 3).flatMap (markSteps m) ++ stampSteps

/-- A primitive and the value it is read from. -/
def Decodes (v : Value) (p : Primitive) : Prop := Primitive.decode trackAction v = .ok p

open Primitive in
theorem decode_mark (m k : Nat) : (mark m k).Forall₂ Decodes (markSteps m k) :=
  .cons (decode_hashOffset _ _ _ (decode_constant _) (decode_constant _))
    (.cons (decode_registerWrite _ (decode_field _ _) (decode_constant _)) .nil)

open Primitive in
theorem decode_head : List.Forall₂ Decodes
    [primitive "register_read" [field "meta" "pos", array lastPosArray, constant 0],
      primitive "register_write" [array recordingArray, field "meta" "pos", field "ipv4" "srcAddr"],
      primitive "add_to_field" [field "meta" "pos", constant 1],
      primitive "register_write" [array lastPosArray, constant 0, field "meta" "pos"],
      primitive "modify_field_with_hash_based_offset"
        [field "meta" "cidx", constant 0, calculation "counting_hash",
          constant (.ofNat countingSize)],
      primitive "register_read" [field "meta" "cnt", array countingArray, field "meta" "cidx"],
      primitive "add_to_field" [field "meta" "cnt", constant 1],
      primitive "register_write" [array countingArray, field "meta" "cidx", field "meta" "cnt"]]
    (logSteps ++ countSteps) :=
  .cons (decode_registerRead _ _ _ (decode_constant _)) <|
  .cons (decode_registerWrite _ (decode_field _ _) (decode_field _ _)) <|
  .cons (decode_add _ _ (decode_constant _)) <|
  .cons (decode_registerWrite _ (decode_constant _) (decode_field _ _)) <|
  .cons (decode_hashOffset _ _ _ (decode_constant _) (decode_constant _)) <|
  .cons (decode_registerRead _ _ _ (decode_field _ _)) <|
  .cons (decode_add _ _ (decode_constant _)) <|
  .cons (decode_registerWrite _ (decode_field _ _) (decode_field _ _)) .nil

open Primitive in
theorem decode_track (m : Nat) :
    (track m).mapM (Primitive.decode trackAction) = .ok (trackSteps m) := by
  have hmarks : ((List.range 3).flatMap (mark m)).Forall₂ Decodes
      ((List.range 3).flatMap (markSteps m)) :=
    List.rel_flatMap (R := Eq) (by simp) fun k _ h => h ▸ decode_mark m k
  exact mapM_eq_ok.mpr (List.rel_append (List.rel_append decode_head hmarks)
    (.cons (decode_registerWrite _ (decode_constant _) (decode_field _ _)) .nil))

/-! ### The program -/

/-- The declared fields. -/
def layout : Layout :=
  ⟨[(bitField, 32), (countField, 32), (slotField, 32), (posField, 32),
    (fullName "ipv4" "dstAddr", 32), (srcField, 32)]⟩

/-- A hash of the source address. -/
def hash (name : String) (id : Int) (algorithm : HashAlgorithm) : Calculation :=
  { identity := { name, id }, algorithm, inputs := [(srcField, 32)],
    inputJson := [field "ipv4" "srcAddr"], extra := [] }

/-- The hashes of the program. -/
def hashes : List Calculation :=
  [hash "counting_hash" 0 .crc32, hash (filterHash 0) 1 .crc16, hash (filterHash 1) 2 .identity,
    hash (filterHash 2) 3 .csum16]

/-- An action without parameters. -/
def action (name : String) (id : Int) (primitives : List Primitive) (json : List Value) : Action :=
  { identity := { name, id }, parameters := [], primitives, primitivesJson := json, extra := [] }

/-- The actions for a filter of `m` cells. -/
def actions (m : Nat) : List Action :=
  [action "NoAction" 0 [] [], action trackAction 1 (trackSteps m) (track m)]

/-- The table, which tracks every packet. -/
def table : Table :=
  { identity := { name := trackTable, id := 0 }
    matchType := "exact"
    keyFields := []
    keyJson := []
    actionIds := [1, 0]
    nextByAction := [(0, none), (1, none)]
    default? := some
      { actionId := 1, data := []
        extra := [("action_const", .bool false), ("action_entry_const", .bool false)] } }

/-- The pipeline of the table. -/
def pipeline : Pipeline :=
  { identity := { name := "ingress", id := 0 }
    init := some ⟨0, 0⟩
    slots := [{ node? := some (.table table) }]
    byName := [(trackTable, ⟨0, 0⟩)] }

/-- A register array over a storage. -/
def register (name : String) (id : Int) (size bitwidth storage : Nat) : RegisterArray :=
  { identity := { name, id }, size, bitwidth, storage }

/-- The register arrays, over the storages from `base` on. -/
def arrays (m base : Nat) : List RegisterArray :=
  [register filterArray 0 m 1 base, register recordingArray 1 recordingSize 32 (base + 1),
    register lastPosArray 2 1 32 (base + 2),
    register countingArray 3 countingSize 32 (base + 3),
    register lastUpdateArray 4 1 48 (base + 4)]

/-- The program for a filter of `m` cells, with its cells in the storages from `base` on. -/
def program (m base : Nat) : Program where
  pipelines := { objects := [pipeline], ids := ⟨1⟩ }
  actions := { actions := actions m, ids := ⟨2⟩ }
  arrays := { objects := arrays m base, ids := ⟨5⟩ }
  calculations := { objects := hashes, ids := ⟨4⟩ }
  layout := layout
  tableIds := ⟨1⟩
  extra := (built m).root.without Program.sectionKeys

/-- The store with the cells of the program. -/
def loaded (m : Nat) (s : Store) : Store :=
  (arrayRecords m).foldl (fun s r => s.add (.zeros r.size r.bitwidth)) s

/-! ### Its records -/

/-- The record of the table. -/
def tableRecord : TableRecord :=
  { identity := table.identity
    key := []
    matchType := "exact"
    actionIds := [1, 0]
    actions := [trackAction, "NoAction"]
    baseNext? := none
    nextTables := [(trackAction, .null), ("NoAction", .null)]
    default? := table.default?.map DefaultEntry.toRecord
    extra := [] }

/-- The record of the pipeline. -/
def ingressRecord : PipelineRecord :=
  { identity := pipeline.identity
    init? := some trackTable
    tables := [tableRecord]
    conditionals := []
    extra := [] }

theorem decode_arrays {m : Nat} (hm : Register.validSize m) :
    Decode.listOf ArrayRecord.decode (.array ((arrayRecords m).map ArrayRecord.encode)) =
      some (arrayRecords m) := by
  have hread : ∀ name id size bitwidth, Identity.validId id → size < UInt64.size →
      bitwidth < UInt32.size → ArrayRecord.decode (arrayRecord name id size bitwidth).encode =
        some (arrayRecord name id size bitwidth) := fun _ _ _ _ hid hsize hbitwidth =>
    ArrayRecord.decode_encode ⟨⟨nofun, nofun⟩, hsize, hbitwidth⟩ hid
  refine Decode.listOf_map ?_
  simp only [arrayRecords, List.forall_mem_cons]
  exact ⟨hread _ _ _ _ (by decide) (Register.lt_of_validSize hm) (by decide), by decide +kernel⟩

theorem decode_actions (m : Nat) :
    Decode.listOf ActionRecord.decode (.array ((actionRecords m).map ActionRecord.encode)) =
      some (actionRecords m) := by
  have hread : ∀ name id primitives, Identity.validId id →
      ActionRecord.decode (actionRecord name id primitives).encode =
        some (actionRecord name id primitives) := by
    intro name id primitives hid
    refine ActionRecord.decode_encode ⟨⟨?_, List.forall_mem_nil _⟩, List.forall_mem_nil _⟩ hid
    simp [actionRecord, Identity.Encodable]
  refine Decode.listOf_map ?_
  simp only [actionRecords, List.forall_mem_cons]
  exact ⟨hread _ _ _ (by decide), hread _ _ _ (by decide), List.forall_mem_nil _⟩

theorem decode_hashes : Decode.listOf CalculationRecord.decode (.array hashEntries) =
    some (hashes.map Calculation.toRecord) := by
  decide +kernel

theorem decode_pipelines :
    Decode.listOf PipelineRecord.decode (.array [ingress.entry]) = some [ingressRecord] := by
  decide +kernel

/-! ### Loading -/

variable {m : Nat}

theorem addArrays_eq (hm : Register.validSize m) (s : Store) :
    (arrayRecords m).foldlM addArray { program := { layout }, store := s } =
      .ok { program := { layout, arrays := { objects := arrays m s.size, ids := ⟨5⟩ } }
            store := loaded m s } := by
  rw [foldlM_addArray rfl]
  · simp [arrayRecords, withArray, arrays, loaded, arrayRecord, register, IdCounter.observe,
      IdCounter.following, maxId, Nat.add_assoc]
  · simp only [arrayRecords, List.forall_mem_cons]
    exact ⟨⟨hm, rfl⟩, by decide⟩
  · show List.Pairwise Identity.Before [⟨filterArray, 0, none⟩, ⟨recordingArray, 1, none⟩,
      ⟨lastPosArray, 2, none⟩, ⟨countingArray, 3, none⟩, ⟨lastUpdateArray, 4, none⟩]
    simp [Identity.Before]
    decide

theorem addCalculations_eq {l : Loader} (hlayout : l.program.layout = layout)
    (hl : l.program.calculations = {}) :
    (hashes.map Calculation.toRecord).foldlM addCalculation l = .ok { l with
      program := { l.program with calculations := { objects := hashes, ids := ⟨4⟩ } } } := by
  have hread : ∀ c ∈ hashes, Calculation.ofRecord layout c.toRecord = .ok c := by decide +kernel
  simp only [hashes, List.forall_mem_cons] at hread
  obtain ⟨h₀, h₁, h₂, h₃, -⟩ := hread
  simp only [hashes, List.map_cons, List.map_nil, foldlM_cons_eq_ok, foldlM_nil_eq_ok]
  have hadd : ∀ {l : Loader} {c : Calculation} {calculations : ObjectMap Calculation},
      l.program.layout = layout → Calculation.ofRecord layout c.toRecord = .ok c →
      l.program.calculations.insert c = .ok calculations → l.addCalculation c.toRecord =
        .ok { l with program := { l.program with calculations } } := fun hl hc hins =>
    addCalculation_eq_ok.mpr ⟨_, _, hl ▸ hc, hins, rfl⟩
  have hfirst : l.program.calculations.insert (hash "counting_hash" 0 .crc32) =
      .ok { objects := [hash "counting_hash" 0 .crc32], ids := ⟨1⟩ } := by rw [hl]; rfl
  exact ⟨_, hadd hlayout h₀ hfirst, _, hadd hlayout h₁ rfl, _, hadd hlayout h₂ rfl, _,
    hadd hlayout h₃ rfl, rfl⟩

theorem addActions_eq {l : Loader} (hl : l.program.actions = {}) :
    (actionRecords m).foldlM addAction l = .ok { l with
      program := { l.program with actions := { actions := actions m, ids := ⟨2⟩ } } } := by
  have htrack : Action.ofRecord (actionRecord trackAction 1 (track m)) =
      .ok (action trackAction 1 (trackSteps m) (track m)) := by
    rw [Action.ofRecord]
    show (do let p ← (track m).mapM (Primitive.decode trackAction); _ : Except LoadError Action) = _
    rw [decode_track]
    rfl
  have hfirst : l.program.actions.insert (action "NoAction" 0 [] []) =
      .ok { actions := [action "NoAction" 0 [] []], ids := ⟨1⟩ } := by rw [hl]; rfl
  exact foldlM_cons_eq_ok.mpr ⟨_, addAction_eq_ok.mpr ⟨_, _, rfl, hfirst, rfl⟩,
    foldlM_cons_eq_ok.mpr ⟨_, addAction_eq_ok.mpr ⟨_, _, htrack, rfl, rfl⟩, rfl⟩⟩

/-- The table before its edges are set. -/
def bareTable : Table := { table with nextByAction := [] }

/-- The pipeline before its edges are set. -/
def barePipeline : Pipeline :=
  { pipeline with init := none, slots := [{ node? := some (.table bareTable) }] }

theorem addTable_eq {l : Loader}
    (hactions : l.program.actions = { actions := actions m, ids := ⟨2⟩ })
    (htables : l.tableIds = []) (hids : l.program.tableIds = {}) :
    l.addTable { identity := pipeline.identity } tableRecord = .ok ({ l with
      program := { l.program with tableIds := ⟨1⟩ }
      tableIds := [0] }, barePipeline) := by
  refine addTable_eq_ok.mpr ⟨bareTable, ⟨0, 0⟩, by simp [htables], ?_, by decide +kernel, rfl, ?_⟩
  · simp only [tableRecord, List.forall_mem_cons, Program.action?, hactions]
    exact ⟨rfl, rfl, nofun⟩
  · rw [hids, htables]
    rfl

theorem linkTable_eq {g : Program} (hactions : g.actions = { actions := actions m, ids := ⟨2⟩ }) :
    linkTable g barePipeline tableRecord = .ok { pipeline with init := none } := by
  have htrack : g.actionNamed? [1, 0] trackAction = some 1 := by
    rw [Program.actionNamed?]
    simp only [Program.action?, hactions]
    rfl
  have hnone : g.actionNamed? [1, 0] "NoAction" = some 0 := by
    rw [Program.actionNamed?]
    simp only [Program.action?, hactions]
    rfl
  have hlink : tableRecord.nextTables.foldlM (linkNext g barePipeline tableRecord) bareTable =
      .ok table := by
    simp only [tableRecord, List.foldlM_cons, List.foldlM_nil, linkNext, htrack, hnone]
    rfl
  exact linkTable_eq_ok.mpr ⟨none, bareTable, table, rfl, rfl, hlink, rfl⟩

theorem addPipelines_eq {l : Loader} (hl : l.program.pipelines = {})
    (hactions : l.program.actions = { actions := actions m, ids := ⟨2⟩ })
    (htables : l.tableIds = []) (hids : l.program.tableIds = {}) :
    [ingressRecord].foldlM addPipeline l = .ok { l with
      program := { l.program with
        pipelines := { objects := [pipeline], ids := ⟨1⟩ }
        tableIds := ⟨1⟩ }
      tableIds := [0] } := by
  have hinsert : l.program.pipelines.insert pipeline =
      .ok { objects := [pipeline], ids := ⟨1⟩ } := by rw [hl]; rfl
  have hlink := linkTable_eq (g := { l.program with tableIds := ⟨1⟩ }) hactions
  exact foldlM_cons_eq_ok.mpr ⟨_, addPipeline_eq_ok.mpr ⟨_, _, _, _, _, _, some ⟨0, 0⟩, _,
    foldlM_cons_eq_ok.mpr ⟨_, addTable_eq hactions htables hids, rfl⟩, rfl,
    foldlM_cons_eq_ok.mpr ⟨_, hlink, rfl⟩, rfl, rfl, hinsert, rfl⟩, rfl⟩

/-- The program and the store after loading the document. -/
theorem ofDocument_document (hm : Register.validSize m) (s : Store) :
    Program.ofDocument s (document m) = .ok (program m s.size, loaded m s) := by
  have h := fun s => get?_built (m := m) (s := s)
  simp only [sections, List.mem_cons, forall_eq_or_imp] at h
  obtain ⟨htypes, hheaders, harrays, hcalculations, hactions, hpipelines, -⟩ := h
  have hlayout : Layout.ofSections (Object.get? (built m).root "header_types")
      (Object.get? (built m).root "headers") = .ok layout := by
    rw [htypes, hheaders]
    decide +kernel
  exact Program.ofDocument_eq_ok.mpr ⟨(built m).root, layout, _, _, _, _, _, _, _, _,
    congrArg Value.fields? (document_eq m), hlayout, recordsOf_array harrays (decode_arrays hm),
    recordsOf_array hcalculations decode_hashes, recordsOf_array hactions (decode_actions m),
    recordsOf_array hpipelines decode_pipelines, addArrays_eq hm s, addCalculations_eq rfl rfl,
    addActions_eq rfl, addPipelines_eq rfl rfl rfl rfl, rfl, rfl⟩

end Sample.BloomFilter

end LiveSwitch
