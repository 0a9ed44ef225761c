import LiveSwitch.Identity
import LiveSwitch.Json.Writer
import LiveSwitch.Register.Limits

/-!
# Why a document is refused

## Main definitions

* `ExprFault` — what is wrong with an expression.
* `LoadError` — what is wrong with a document, with its text `LoadError.message`.
-/

namespace LiveSwitch

open Json

/-- What is wrong with an expression. -/
inductive ExprFault where
  /-- A field has to be given as a header name and a field name. -/
  | fieldReference (found : Value)
  | constant (found : Value)
  | truth (found : Value)
  | dataIndex (found : Value)
  | header (found : Value)
  | operator (op : String)
  /-- Neither an operand nor an operation. -/
  | form (found : Value)
  deriving DecidableEq, Repr

/-- The text of a fault. -/
def ExprFault.message : ExprFault → String
  | fieldReference v => s!"bad field reference {v.compact}"
  | constant v => s!"bad hexstr {v.compact}"
  | truth v => s!"bad bool {v.compact}"
  | dataIndex v => s!"bad runtime_data {v.compact}"
  | header v => s!"bad header {v.compact}"
  | operator op => s!"operator '{op}'"
  | form v => v.compact

/-- What is wrong with a document. -/
inductive LoadError where
  /-- The bytes of the document cannot be had. -/
  | unreadable
  /-- The bytes are not a JSON text. -/
  | notJson
  | notAnObject
  /-- A section does not have the type it should have. -/
  | illTyped (sectionName : String)
  | badFieldDeclaration (headerType : String) (declaration : Value)
  | unknownHeaderType (header : String) (headerType : String)
  | invalidSize (array : String) (size : Nat)
  | invalidBitwidth (array : String) (bitwidth : Nat)
  | unknownHashAlgorithm (name : String)
  | badCalculationInput (calculation : String) (input : Value)
  | unknownField (field : String) (calculation : String)
  | unsupportedPrimitive (action : String) (op : String)
  | missingParameter (action : String) (op : String) (index : Nat)
  /-- A parameter should name an object of some kind and does not. -/
  | badParameter (kind : ObjectKind) (found : Value)
  | unsupportedExpression (fault : ExprFault)
  | conditionalWithoutExpression (name : String)
  | keyWithoutTarget (table : String) (key : Value)
  | badActionData (table : String) (text : String)
  | duplicateName (kind : ObjectKind) (name : String)
  | duplicateId (kind : ObjectKind) (id : Int)
  /-- An object names another one that does not exist. -/
  | unknownReference (kind : ObjectKind) (name : String) (referrerKind : ObjectKind)
      (referrer : String)
  deriving DecidableEq, Repr

namespace LoadError

/-- The text of an error. -/
def message : LoadError → String
  | unreadable => "Failed to read configuration"
  | notJson => "Malformed JSON"
  | notAnObject => "Configuration root must be a JSON object"
  | illTyped sectionName => s!"Malformed {sectionName}"
  | badFieldDeclaration headerType declaration =>
    s!"Malformed header_types: bad field declaration {declaration.compact} in header type " ++
      headerType
  | unknownHeaderType header headerType =>
    s!"Header '{header}' uses unknown header type '{headerType}'"
  | invalidSize array size =>
    s!"Invalid register array '{array}': size {size} outside 1..={Register.maxSize}"
  | invalidBitwidth array bitwidth =>
    s!"Invalid register array '{array}': bitwidth {bitwidth} outside 1..={Register.maxBitwidth}"
  | unknownHashAlgorithm name => s!"Unknown hash algorithm: {name}"
  | badCalculationInput calculation input =>
    s!"Malformed calculations: calculation '{calculation}' has unsupported input " ++
      input.compact
  | unknownField field calculation =>
    s!"Field '{field}' used by calculation '{calculation}' is not declared"
  | unsupportedPrimitive action op => s!"Unsupported primitive '{op}' in action '{action}'"
  | missingParameter action op index =>
    s!"Malformed actions: primitive '{op}' in action '{action}' is missing parameter {index}"
  | badParameter kind found =>
    s!"Malformed actions: expected {kind.text} parameter, found {found.compact}"
  | unsupportedExpression fault => s!"Unsupported expression: {fault.message}"
  | conditionalWithoutExpression name =>
    s!"Malformed pipelines: conditional '{name}' has no expression"
  | keyWithoutTarget table key =>
    s!"Malformed pipelines: table '{table}' key without target: {key.compact}"
  | badActionData table text =>
    s!"Malformed pipelines: table '{table}' default entry has bad action data '{text}'"
  | duplicateName kind name => s!"Duplicate {kind.text} name '{name}'"
  | duplicateId kind id => s!"Duplicate {kind.text} id {id}"
  | unknownReference kind name referrerKind referrer =>
    s!"{kind.text} '{name}' referenced by {referrerKind.text} '{referrer}' does not exist"

end LoadError

end LiveSwitch
