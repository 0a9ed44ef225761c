import LiveSwitch.Json.Value
import LiveSwitch.Pipeline.Node
import LiveSwitch.Text.Numeral

/-!
# Building documents

Documents can be put together entry by entry, without being checked: a document may name
things that it does not declare.

## Main definitions

* `Operand` — functions that write operands and expressions.
* `DocumentBuilder` — a document under construction, with a function for each kind of
  entry.
* `PipelineBuilder` — one pipeline under construction.
-/

namespace LiveSwitch

open Json

/-- The object of a list of fields. -/
def objectOf (fields : List (String × Value)) : Value := .object (Object.ofList fields)

/-- A text, or null. -/
def nameOrNull (s? : Option String) : Value := Record.textOrNull s?

/-! ### Operands -/

namespace Operand

/-- An operand of a type. -/
def typed (type : String) (value : Value) : Value :=
  objectOf [("type", .string type), ("value", value)]

/-- A field of a header. -/
def field (header name : String) : Value := typed "field" (.array [.string header, .string name])

/-- A constant. -/
def constant (v : UInt64) : Value := typed "hexstr" (.string (Constant.text v))

/-- An item of the action data. -/
def data (i : Nat) : Value := typed "runtime_data" (.ofNat i)

/-- A register array. -/
def array (name : String) : Value := typed "register_array" (.string name)

/-- A calculation. -/
def calculation (name : String) : Value := typed "calculation" (.string name)

/-- An operation. -/
def operation (op : String) (left right : Value) : Value :=
  typed "expression" (objectOf [("op", .string op), ("left", left), ("right", right)])

/-- The condition that a header is present. -/
def valid (header : String) : Value :=
  operation "valid" .null (typed "header" (.string header))

/-- The condition that a field has a value. -/
def fieldEquals (header name : String) (v : UInt64) : Value :=
  operation "==" (field header name) (constant v)

/-- A primitive of an action. -/
def primitive (op : String) (parameters : List Value) : Value :=
  objectOf [("op", .string op), ("parameters", .array parameters)]

end Operand

/-! ### Pipelines -/

/-- A pipeline under construction. -/
structure PipelineBuilder where
  name : String
  id : Int
  init? : Option String := none
  tables : List Value := []
  conditionals : List Value := []
  deriving Repr

namespace PipelineBuilder

/-- Sets the first node. -/
def init (p : PipelineBuilder) (node : String) : PipelineBuilder := { p with init? := some node }

/-- Adds a conditional. -/
def conditional (p : PipelineBuilder) (name : String) (id : Int) (expression : Value)
    (trueNext? falseNext? : Option String) : PipelineBuilder :=
  let entry := objectOf
    [("name", .string name), ("id", .ofInt id), ("expression", expression),
      ("true_next", nameOrNull trueNext?), ("false_next", nameOrNull falseNext?)]
  { p with conditionals := p.conditionals ++ [entry] }

/-- The default entry of a table that runs an action without data. -/
def defaultEntry (actionId : Int) : Value :=
  objectOf [("action_id", .ofInt actionId), ("action_const", .bool false),
    ("action_data", .array []), ("action_entry_const", .bool false)]

/-- Adds a table: its key fields, its actions by name and id, its next nodes by the names
of actions, the base node and the id of the default action. -/
def table (p : PipelineBuilder) (name : String) (id : Int) (key : List (String × String))
    (actions : List (String × Int)) (next : List (String × Option String))
    (base? : Option String) (default? : Option Int) : PipelineBuilder :=
  let keyPart (k : String × String) : Value := objectOf
    [("match_type", .string "exact"), ("target", .array [.string k.1, .string k.2])]
  let entry := objectOf
    ([("name", .string name), ("id", .ofInt id), ("match_type", .string "exact"),
      ("key", .array (key.map keyPart)),
      ("action_ids", .array (actions.map fun a => .ofInt a.2)),
      ("actions", .array (actions.map fun a => .string a.1)),
      ("base_default_next", nameOrNull base?),
      ("next_tables", objectOf (next.map fun n => (n.1, nameOrNull n.2)))] ++
      (default?.map fun d => ("default_entry", defaultEntry d)).toList)
  { p with tables := p.tables ++ [entry] }

/-- The entry of the pipeline. -/
def entry (p : PipelineBuilder) : Value :=
  objectOf
    [("name", .string p.name), ("id", .ofInt p.id), ("init_table", nameOrNull p.init?),
      ("tables", .array p.tables), ("conditionals", .array p.conditionals)]

end PipelineBuilder

/-! ### Documents -/

/-- A document under construction. -/
structure DocumentBuilder where
  root : Object
  deriving Repr

namespace DocumentBuilder

/-- The document with all sections and no entry. -/
def empty : DocumentBuilder :=
  ⟨Object.ofList (["header_types", "headers", "register_arrays", "calculations", "actions",
    "pipelines"].map fun key => (key, .array []))⟩

/-- Adds an entry to a section; a section that is no list any more stays as it is. -/
def push (d : DocumentBuilder) (sectionName : String) (entry : Value) : DocumentBuilder :=
  match Object.get? d.root sectionName with
  | some (.array items) => ⟨Object.insert sectionName (.array (items ++ [entry])) d.root⟩
  | _ => d

/-- Sets a section to any value. -/
def set (d : DocumentBuilder) (key : String) (value : Value) : DocumentBuilder :=
  ⟨Object.insert key value d.root⟩

/-- Declares a header type with its fields and their widths. -/
def headerType (d : DocumentBuilder) (name : String) (fields : List (String × Nat)) :
    DocumentBuilder :=
  let field (f : String × Nat) : Value := .array [.string f.1, .ofNat f.2, .bool false]
  d.push "header_types"
    (objectOf [("name", .string name), ("fields", .array (fields.map field))])

/-- Declares a header. -/
def header (d : DocumentBuilder) (name : String) (id : Int) (type : String) :
    DocumentBuilder :=
  d.push "headers"
    (objectOf [("name", .string name), ("id", .ofInt id), ("header_type", .string type)])

/-- Adds a register array. -/
def array (d : DocumentBuilder) (name : String) (id : Int) (size bitwidth : Nat) :
    DocumentBuilder :=
  d.push "register_arrays"
    (objectOf [("name", .string name), ("id", .ofInt id), ("size", .ofNat size),
      ("bitwidth", .ofNat bitwidth)])

/-- Adds a calculation over one field. -/
def calculation (d : DocumentBuilder) (name : String) (id : Int)
    (algorithm header field : String) : DocumentBuilder :=
  d.push "calculations"
    (objectOf [("name", .string name), ("id", .ofInt id), ("algo", .string algorithm),
      ("input", .array [Operand.field header field])])

/-- Adds an action. -/
def action (d : DocumentBuilder) (name : String) (id : Int) (parameters : List (String × Nat))
    (primitives : List Value) : DocumentBuilder :=
  let parameter (p : String × Nat) : Value :=
    objectOf [("name", .string p.1), ("bitwidth", .ofNat p.2)]
  d.push "actions"
    (objectOf [("name", .string name), ("id", .ofInt id),
      ("runtime_data", .array (parameters.map parameter)),
      ("primitives", .array primitives)])

/-- Adds a pipeline. -/
def pipeline (d : DocumentBuilder) (p : PipelineBuilder) : DocumentBuilder :=
  d.push "pipelines" p.entry

/-- The document. -/
def document (d : DocumentBuilder) : Value := .object d.root

end DocumentBuilder

end LiveSwitch
