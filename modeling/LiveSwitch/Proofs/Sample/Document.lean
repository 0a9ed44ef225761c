import LiveSwitch.Proofs.Document.Building
import LiveSwitch.Proofs.Document.Records
import LiveSwitch.Proofs.Register.Storage
import LiveSwitch.Sample.BloomFilter

/-!
# The document of the filter program

The document of the filter program is given by its sections.  For every size that a filter can
have, it can be written as a text and its records can be read back.

## Main definitions

* `BloomFilter.sections` — the document by its sections.
* `BloomFilter.arrayRecords`, `BloomFilter.actionRecords` — the records that depend on the size.

## Main results

* `BloomFilter.plain_document` — the document survives being written and read.
-/

namespace LiveSwitch

open Json

/-! ### The document by its sections -/

namespace Sample.BloomFilter

open Operand

/-- The record of a register array. -/
def arrayRecord (name : String) (id : Int) (size bitwidth : Nat) : ArrayRecord :=
  { identity := { name, id }, size, bitwidth, extra := [] }

/-- The records of the register arrays for a filter of `m` cells. -/
def arrayRecords (m : Nat) : List ArrayRecord :=
  [arrayRecord filterArray 0 m 1, arrayRecord recordingArray 1 recordingSize 32,
    arrayRecord lastPosArray 2 1 32, arrayRecord countingArray 3 countingSize 32,
    arrayRecord lastUpdateArray 4 1 48]

/-- The record of an action without parameters. -/
def actionRecord (name : String) (id : Int) (primitives : List Value) : ActionRecord :=
  { identity := { name, id }, parameters := [], primitives, extra := [] }

/-- The records of the actions for a filter of `m` cells. -/
def actionRecords (m : Nat) : List ActionRecord :=
  [actionRecord "NoAction" 0 [], actionRecord trackAction 1 (track m)]

/-- The entry of a hash of the source address. -/
def hashEntry (name : String) (id : Int) (algorithm : String) : Value :=
  objectOf [("name", .string name), ("id", .ofInt id), ("algo", .string algorithm),
    ("input", .array [field "ipv4" "srcAddr"])]

/-- The entries of the hashes. -/
def hashEntries : List Value :=
  hashEntry "counting_hash" 0 countingHash ::
    targetHashes.zipIdx.map fun h => hashEntry (filterHash h.2) (h.2 + 1) h.1

/-- The entry of a header type whose fields have 32 bits. -/
def headerTypeEntry (name : String) (fields : List String) : Value :=
  let field (f : String) : Value := .array [.string f, .ofNat 32, .bool false]
  objectOf [("name", .string name), ("fields", .array (fields.map field))]

/-- The entry of a header. -/
def headerEntry (name : String) (id : Int) (type : String) : Value :=
  objectOf [("name", .string name), ("id", .ofInt id), ("header_type", .string type)]

/-- The document of the program with a filter of `m` cells, section by section. -/
def sections (m : Nat) : List (String × List Value) :=
  [("header_types", [headerTypeEntry "ipv4_t" ["srcAddr", "dstAddr"],
      headerTypeEntry "meta_t" ["pos", "cidx", "cnt", "bit"]]),
    ("headers", [headerEntry "ipv4" 0 "ipv4_t", headerEntry "meta" 1 "meta_t"]),
    ("register_arrays", (arrayRecords m).map ArrayRecord.encode),
    ("calculations", hashEntries),
    ("actions", (actionRecords m).map ActionRecord.encode),
    ("pipelines", [ingress.entry])]

/-- The document under construction, section by section. -/
def built (m : Nat) : DocumentBuilder :=
  DocumentBuilder.empty.pushAll (DocumentBuilder.entriesOf (sections m))

theorem document_eq (m : Nat) : document m = (built m).document := by
  simp only [built, DocumentBuilder.pushAll, DocumentBuilder.entriesOf, sections, arrayRecords,
    actionRecords, hashEntries, targetHashes, List.flatMap_cons, List.flatMap_nil, List.map_cons,
    List.map_nil, List.zipIdx_cons, List.zipIdx_nil, List.cons_append, List.nil_append,
    List.foldl_cons, List.foldl_nil, document]
  rfl

theorem get?_built {m : Nat} {s : String × List Value} (hs : s ∈ sections m) :
    Object.get? (built m).root s.1 = some (.array s.2) :=
  DocumentBuilder.get?_entriesOf rfl hs

/-! ### The text of the document -/

open Json.Value

theorem plain_track (m : Nat) : ∀ p ∈ track m, p.Plain 4 := by
  have hmark : ∀ k, ∀ p ∈ mark m k, p.Plain 4 := by
    intro k
    simp [mark, plain_primitive, plain_field, plain_constant, plain_array, plain_calculation]
  simp only [track, List.mem_append, List.mem_flatMap]
  rintro p ((hp | ⟨k, -, hp⟩) | hp)
  · revert p
    decide +kernel
  · exact hmark k p hp
  · revert p
    decide +kernel

theorem plain_arrayRecord {name : String} {id : Int} {size bitwidth : Nat}
    (hid : Reader.FitsWord id) (hsize : size < 2 ^ 64) (hbitwidth : bitwidth < 2 ^ 64) :
    (arrayRecord name id size bitwidth).encode.Plain 6 := by
  show (objectOf [("name", .string name), ("id", .ofInt id), ("size", .ofNat size),
    ("bitwidth", .ofNat bitwidth)]).Plain 6
  refine plain_objectOf ?_
  simp only [List.forall_mem_cons]
  exact ⟨.string name, plain_ofInt hid, plain_ofNat hsize, plain_ofNat hbitwidth, nofun⟩

theorem plain_actionRecord {name : String} {id : Int} {primitives : List Value}
    (hid : Reader.FitsWord id) (h : ∀ p ∈ primitives, p.Plain 4) :
    (actionRecord name id primitives).encode.Plain 6 := by
  show (objectOf [("name", .string name), ("id", .ofInt id), ("runtime_data", .array []),
    ("primitives", .array primitives)]).Plain 6
  refine plain_objectOf ?_
  simp only [List.forall_mem_cons]
  exact ⟨.string name, plain_ofInt hid, .array nofun, .array h, nofun⟩

theorem plain_sections {m : Nat} (hm : Register.validSize m) :
    ∀ s ∈ sections m, ∀ v ∈ s.2, v.Plain 6 := by
  have hsize := Register.lt_of_validSize hm
  simp only [sections, arrayRecords, actionRecords, List.map_cons, List.map_nil,
    List.forall_mem_cons]
  refine ⟨by decide +kernel, by decide +kernel, ?arrays, by decide +kernel, ?actions,
    by decide +kernel, nofun⟩
  case arrays => exact ⟨plain_arrayRecord (by decide) hsize (by decide), by decide +kernel⟩
  case actions => exact ⟨by decide +kernel, plain_actionRecord (by decide) (plain_track m), nofun⟩

/-- The document survives being written as a text and read again. -/
theorem plain_document {m : Nat} (hm : Register.validSize m) :
    (document m).Plain Reader.maxDepth := by
  rw [document_eq]
  refine Plain.mono (DocumentBuilder.plain_pushAll fun e he => ?_) (show 8 ≤ 127 by decide)
  obtain ⟨s, hs, he⟩ := List.mem_flatMap.mp he
  obtain ⟨v, hv, rfl⟩ := List.mem_map.mp he
  exact plain_sections hm s hs v hv

end Sample.BloomFilter

end LiveSwitch
