import LiveSwitch.Identity

/-!
# Records of a document

Four sections of a document list records: register arrays, calculations, actions and
pipelines, the latter with records of tables and conditionals inside.  A record is an
object.  Fields without a meaning here are kept as `extra` and written back unchanged.

## Main definitions

* `ArrayRecord`, `CalculationRecord`, `ActionRecord`, `TableRecord`, `ConditionalRecord`,
  `PipelineRecord` — the records, each with `decode` and `encode`.
-/

namespace LiveSwitch

open Json

namespace Record

/-- The fields of a record beyond the known ones. -/
def extra (known : List String) (o : Object) : Object := o.without (Identity.keys ++ known)

/-- The object of a record: its extra fields and the known ones. -/
def build (identity : Identity) (known : List (String × Value)) (extra : Object) : Value :=
  .object (extra.insertAll (identity.encode ++ known))

/-- A text or null. -/
def textOrNull : Option String → Value
  | some s => .string s
  | none => .null

end Record

open Decode Record

/-- The record of a register array. -/
structure ArrayRecord where
  identity : Identity
  size : Nat
  bitwidth : Nat
  extra : Object
  deriving DecidableEq, Repr

namespace ArrayRecord

/-- Reads the record of a register array. -/
def decode : Decoder ArrayRecord := fun v => do
  let o ← v.fields?
  return {
    identity := ← Identity.decode o
    size := ← required o "size" (natBelow UInt64.size)
    bitwidth := ← required o "bitwidth" (natBelow UInt32.size)
    extra := Record.extra ["size", "bitwidth"] o }

/-- Writes the record of a register array. -/
def encode (r : ArrayRecord) : Value :=
  build r.identity [("size", .ofNat r.size), ("bitwidth", .ofNat r.bitwidth)] r.extra

end ArrayRecord

/-- The record of a calculation. -/
structure CalculationRecord where
  identity : Identity
  input : List Value
  algorithm : String
  extra : Object
  deriving DecidableEq, Repr

namespace CalculationRecord

/-- Reads the record of a calculation. -/
def decode : Decoder CalculationRecord := fun v => do
  let o ← v.fields?
  return {
    identity := ← Identity.decode o
    input := ← withDefault o "input" (listOf any) []
    algorithm := ← required o "algo" text
    extra := Record.extra ["input", "algo"] o }

/-- Writes the record of a calculation. -/
def encode (r : CalculationRecord) : Value :=
  build r.identity [("input", .array r.input), ("algo", .string r.algorithm)] r.extra

end CalculationRecord

/-- A parameter of an action: its name and its width. -/
structure Parameter where
  name : String
  bitwidth : Nat
  deriving DecidableEq, Repr

namespace Parameter

/-- Reads a parameter. -/
def decode : Decoder Parameter := fun v => do
  let o ← positional ["name", "bitwidth"] v
  return {
    name := ← required o "name" text
    bitwidth := ← required o "bitwidth" (natBelow UInt32.size) }

/-- Writes a parameter. -/
def encode (p : Parameter) : Value :=
  .object [("bitwidth", .ofNat p.bitwidth), ("name", .string p.name)]

end Parameter

/-- The record of an action. -/
structure ActionRecord where
  identity : Identity
  parameters : List Parameter
  primitives : List Value
  extra : Object
  deriving DecidableEq, Repr

namespace ActionRecord

/-- Reads the record of an action. -/
def decode : Decoder ActionRecord := fun v => do
  let o ← v.fields?
  return {
    identity := ← Identity.decode o
    parameters := ← withDefault o "runtime_data" (listOf Parameter.decode) []
    primitives := ← withDefault o "primitives" (listOf any) []
    extra := Record.extra ["runtime_data", "primitives"] o }

/-- Writes the record of an action. -/
def encode (r : ActionRecord) : Value :=
  build r.identity
    [("runtime_data", .array (r.parameters.map Parameter.encode)),
      ("primitives", .array r.primitives)] r.extra

end ActionRecord

/-- The record of the default entry of a table. -/
structure DefaultRecord where
  actionId : Int
  data : List String
  extra : Object
  deriving DecidableEq, Repr

namespace DefaultRecord

/-- Reads the record of a default entry. -/
def decode : Decoder DefaultRecord := fun v => do
  let o ← v.fields?
  return {
    actionId := ← required o "action_id" Identity.decodeId
    data := ← withDefault o "action_data" (listOf text) []
    extra := o.without ["action_id", "action_data"] }

/-- Writes the record of a default entry. -/
def encode (r : DefaultRecord) : Value :=
  .object (r.extra.insertAll
    [("action_id", .ofInt r.actionId), ("action_data", .array (r.data.map .string))])

end DefaultRecord

/-- The record of a table. -/
structure TableRecord where
  identity : Identity
  key : List Value
  matchType : String
  actionIds : List Int
  actions : List String
  baseNext? : Option String
  nextTables : Object
  default? : Option DefaultRecord
  extra : Object
  deriving DecidableEq, Repr

namespace TableRecord

/-- The fields of a table besides its identity. -/
def keys : List String :=
  ["key", "match_type", "action_ids", "actions", "base_default_next", "next_tables",
    "default_entry"]

/-- Reads the record of a table. -/
def decode : Decoder TableRecord := fun v => do
  let o ← v.fields?
  return {
    identity := ← Identity.decode o
    key := ← withDefault o "key" (listOf any) []
    matchType := ← withDefault o "match_type" text "exact"
    actionIds := ← withDefault o "action_ids" (listOf Identity.decodeId) []
    actions := ← withDefault o "actions" (listOf text) []
    baseNext? := ← optional o "base_default_next" text
    nextTables := ← withDefault o "next_tables" object []
    default? := ← optional o "default_entry" DefaultRecord.decode
    extra := Record.extra keys o }

/-- Writes the record of a table. -/
def encode (r : TableRecord) : Value :=
  build r.identity
    ([("key", .array r.key), ("match_type", .string r.matchType),
      ("action_ids", .array (r.actionIds.map .ofInt)),
      ("actions", .array (r.actions.map .string)),
      ("base_default_next", textOrNull r.baseNext?),
      ("next_tables", .object r.nextTables)] ++
      (r.default?.map fun d => ("default_entry", d.encode)).toList) r.extra

end TableRecord

/-- The record of a conditional. -/
structure ConditionalRecord where
  identity : Identity
  expression? : Option Value
  trueNext? : Option String
  falseNext? : Option String
  flex : Bool
  extra : Object
  deriving DecidableEq, Repr

namespace ConditionalRecord

/-- Reads the record of a conditional. -/
def decode : Decoder ConditionalRecord := fun v => do
  let o ← v.fields?
  return {
    identity := ← Identity.decode o
    expression? := ← optional o "expression" any
    trueNext? := ← optional o "true_next" text
    falseNext? := ← optional o "false_next" text
    flex := ← withDefault o "flex" truth false
    extra := Record.extra ["expression", "true_next", "false_next", "flex"] o }

/-- Writes the record of a conditional. -/
def encode (r : ConditionalRecord) : Value :=
  build r.identity
    ([("expression", r.expression?.getD .null), ("true_next", textOrNull r.trueNext?),
      ("false_next", textOrNull r.falseNext?)] ++
      (if r.flex then [("flex", .bool true)] else [])) r.extra

end ConditionalRecord

/-- The record of a pipeline. -/
structure PipelineRecord where
  identity : Identity
  init? : Option String
  tables : List TableRecord
  conditionals : List ConditionalRecord
  extra : Object
  deriving DecidableEq, Repr

namespace PipelineRecord

/-- Reads the record of a pipeline. -/
def decode : Decoder PipelineRecord := fun v => do
  let o ← v.fields?
  return {
    identity := ← Identity.decode o
    init? := ← optional o "init_table" text
    tables := ← withDefault o "tables" (listOf TableRecord.decode) []
    conditionals := ← withDefault o "conditionals" (listOf ConditionalRecord.decode) []
    extra := Record.extra ["init_table", "tables", "conditionals"] o }

/-- Writes the record of a pipeline. -/
def encode (r : PipelineRecord) : Value :=
  build r.identity
    [("init_table", textOrNull r.init?), ("tables", .array (r.tables.map (·.encode))),
      ("conditionals", .array (r.conditionals.map (·.encode)))] r.extra

end PipelineRecord

end LiveSwitch
