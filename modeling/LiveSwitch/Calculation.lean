import LiveSwitch.Document.Record
import LiveSwitch.Expr.Decode
import LiveSwitch.Hash.Algorithm
import LiveSwitch.Hash.Packing
import LiveSwitch.ObjectMap
import LiveSwitch.Packet.Layout

/-!
# Calculations

A calculation hashes some fields of a packet, each with its declared width.

## Main definitions

* `Calculation` — a calculation, with `compute`.
* `Calculation.ofRecord`, `Calculation.toRecord` — from and to its record.
-/

namespace LiveSwitch

open Json

/-- A named hash of packet fields. -/
structure Calculation where
  identity : Identity
  algorithm : HashAlgorithm
  /-- The fields and their widths, in the order in which they are hashed. -/
  inputs : List (String × Nat)
  /-- The inputs as the document gives them. -/
  inputJson : List Value
  extra : Object
  deriving DecidableEq, Repr

instance : Named Calculation := ⟨Calculation.identity⟩

namespace Calculation

/-- One input of a calculation: a declared field and its width. -/
def decodeInput (layout : Layout) (name : String) (v : Value) :
    Except LoadError (String × Nat) :=
  if (v.field? "type").bind Value.string? = some "field" then do
    let field ← fieldName ((v.field? "value").getD .null)
    match layout.width? field with
    | some width => return (field, width)
    | none => throw (.unknownField field name)
  else throw (.badCalculationInput name v)

/-- The calculation of a record. -/
def ofRecord (layout : Layout) (r : CalculationRecord) : Except LoadError Calculation :=
  match HashAlgorithm.ofName? r.algorithm with
  | none => .error (.unknownHashAlgorithm r.algorithm)
  | some algorithm => do
    let inputs ← r.input.mapM (decodeInput layout r.identity.name)
    return { identity := r.identity, algorithm, inputs, inputJson := r.input, extra := r.extra }

/-- The record of a calculation. -/
def toRecord (c : Calculation) : CalculationRecord :=
  { identity := c.identity, input := c.inputJson, algorithm := c.algorithm.name,
    extra := c.extra }

/-- The calculation under another id. -/
def withId (c : Calculation) (id : Int) : Calculation :=
  { c with identity := { c.identity with id } }

/-- The hash of a packet's fields. -/
def compute (c : Calculation) (p : Packet) : UInt64 :=
  c.algorithm.compute (Hash.packFields (c.inputs.map fun f => (p.field f.1, f.2)))

end Calculation

end LiveSwitch
