import LiveSwitch.Document.Builder

/-!
# A filter program

Every packet appends its source address to a log, moves the end of the log, counts up the
slot that one hash of the address names, sets the three cells of a filter that three more
hashes name, and stamps a register.  The filter can be rehashed from the log when its size
changes.
-/

namespace LiveSwitch.Sample.BloomFilter

open Operand

/-- The filter. -/
def filterArray : String := "defence_bloom_filter_for_ip_src"

/-- The log of source addresses. -/
def recordingArray : String := "ip_src_recording"

/-- The register that holds the end of the log. -/
def lastPosArray : String := "ip_src_recording_last_pos"

/-- The counters. -/
def countingArray : String := "ip_src_counting"

/-- The register that is stamped last. -/
def lastUpdateArray : String := "last_update_time_for_defence_bloom_filter"

/-- The action of the program. -/
def trackAction : String := "MyIngress.track_ip_src"

/-- The table of the program. -/
def trackTable : String := "MyIngress.track"

/-- The number of addresses that the log holds. -/
def recordingSize : Nat := 256

/-- The number of counters. -/
def countingSize : Nat := 32

/-- The hash of the counters. -/
def countingHash : String := "crc32"

/-- The hashes of the filter. -/
def targetHashes : List String := ["crc16", "identity", "csum16"]

/-- The name of the calculation of the `k`-th hash of the filter. -/
def filterHash (k : Nat) : String := s!"bloom_hash_{k}"

/-- Sets the cell of a filter of `size` cells that the `k`-th hash names. -/
def mark (size k : Nat) : List Json.Value :=
  [primitive "modify_field_with_hash_based_offset"
      [field "meta" "bit", constant 0, calculation (filterHash k), constant (.ofNat size)],
    primitive "register_write" [array filterArray, field "meta" "bit", constant 1]]

/-- What the action does for a filter of `size` cells. -/
def track (size : Nat) : List Json.Value :=
  [primitive "register_read" [field "meta" "pos", array lastPosArray, constant 0],
    primitive "register_write" [array recordingArray, field "meta" "pos", field "ipv4" "srcAddr"],
    primitive "add_to_field" [field "meta" "pos", constant 1],
    primitive "register_write" [array lastPosArray, constant 0, field "meta" "pos"],
    primitive "modify_field_with_hash_based_offset"
      [field "meta" "cidx", constant 0, calculation "counting_hash",
        constant (.ofNat countingSize)],
    primitive "register_read" [field "meta" "cnt", array countingArray, field "meta" "cidx"],
    primitive "add_to_field" [field "meta" "cnt", constant 1],
    primitive "register_write" [array countingArray, field "meta" "cidx", field "meta" "cnt"]] ++
  (List.range 3).flatMap (mark size) ++
  [primitive "register_write" [array lastUpdateArray, constant 0, field "ipv4" "srcAddr"]]

/-- The pipeline of the program. -/
def ingress : PipelineBuilder :=
  { name := "ingress", id := 0, init? := some trackTable : PipelineBuilder }
    |>.table trackTable 0 [] [(trackAction, 1), ("NoAction", 0)]
      [(trackAction, none), ("NoAction", none)] none (some 1)

/-- Adds the calculation of one hash of the filter. -/
def addHash (d : DocumentBuilder) (h : String × Nat) : DocumentBuilder :=
  d.calculation (filterHash h.2) (h.2 + 1) h.1 "ipv4" "srcAddr"

/-- The document of the program with a filter of `size` cells. -/
def document (size : Nat) : Json.Value :=
  let declared := DocumentBuilder.empty
    |>.headerType "ipv4_t" [("srcAddr", 32), ("dstAddr", 32)]
    |>.headerType "meta_t" [("pos", 32), ("cidx", 32), ("cnt", 32), ("bit", 32)]
    |>.header "ipv4" 0 "ipv4_t"
    |>.header "meta" 1 "meta_t"
    |>.array filterArray 0 size 1
    |>.array recordingArray 1 recordingSize 32
    |>.array lastPosArray 2 1 32
    |>.array countingArray 3 countingSize 32
    |>.array lastUpdateArray 4 1 48
    |>.calculation "counting_hash" 0 countingHash "ipv4" "srcAddr"
  targetHashes.zipIdx.foldl addHash declared
    |>.action "NoAction" 0 [] []
    |>.action trackAction 1 [] (track size)
    |>.pipeline ingress
    |>.document

end LiveSwitch.Sample.BloomFilter
