import LiveSwitch.Expr.Basic
import LiveSwitch.LoadError
import LiveSwitch.Text.Numeral

/-!
# Reading expressions

An operand is an object with a `type` and a `value`.  The value of an operand of type
`expression` is an operation: an object with an `op` and the operands `left` and `right`;
an operator with one operand takes the right one.

## Main definitions

* `fieldName` — a field given as a header name and a field name.
* `Expr.decode` — an operand.
* `Expr.decodeOperation` — an operation.
-/

namespace LiveSwitch

open Json

/-- A value in a field of an object is smaller than the object. -/
theorem Json.Value.sizeOf_field? {v w : Value} {key : String} (h : v.field? key = some w) :
    sizeOf w < sizeOf v := by
  cases v with
  | object o =>
    simp only [Value.field?, Object.get?] at h
    rw [Value.object.sizeOf_spec]
    suffices sizeOf w < sizeOf o by omega
    induction o with
    | nil => simp at h
    | cons f o ih =>
      obtain ⟨k, v⟩ := f
      rw [Assoc.lookup_cons_eq] at h
      simp only [List.cons.sizeOf_spec, Prod.mk.sizeOf_spec]
      split at h
      · cases h
        omega
      · have := ih h
        omega
  | _ => simp [Value.field?] at h

/-- The full name of a field given as `[header, field]`. -/
def fieldName (v : Value) : Except LoadError String :=
  match v with
  | .array [.string header, .string field] => .ok s!"{header}.{field}"
  | v => .error (.unsupportedExpression (.fieldReference v))

/-- The operator with one operand of a name. -/
def UnaryOp.ofName? : String → Option UnaryOp
  | "not" => some not
  | "~" => some complement
  | "valid" => some valid
  | "d2b" | "b2d" => some convert
  | _ => none

/-- The operator with two operands of a name. -/
def BinaryOp.ofName? : String → Option BinaryOp
  | "+" => some add
  | "-" => some sub
  | "*" => some mul
  | "%" => some mod
  | "&" => some bitAnd
  | "|" => some bitOr
  | "^" => some bitXor
  | "<<" => some shiftLeft
  | ">>" => some shiftRight
  | "==" => some eq
  | "!=" => some ne
  | "<" => some lt
  | "<=" => some le
  | ">" => some gt
  | ">=" => some ge
  | "and" => some and
  | "or" => some or
  | _ => none

namespace Expr

/-- The value of an operand that is no operation. -/
def decodeLeaf (kind? : Option String) (v inner : Value) : Except LoadError Expr :=
  let fault (f : ExprFault) : Except LoadError Expr := .error (.unsupportedExpression f)
  match kind? with
  | some "field" => (fieldName inner).map field
  | some "hexstr" =>
    match inner.string?.bind Constant.parse? with
    | some c => .ok (const c)
    | none => fault (.constant inner)
  | some "bool" =>
    match inner.bool? with
    | some b => .ok (const (ofTruth b))
    | none => fault (.truth inner)
  | some "runtime_data" =>
    match inner.natural? with
    | some i => .ok (.data i)
    | none => fault (.dataIndex inner)
  | some "header" =>
    match inner.string? with
    | some h => .ok (header h)
    | none => fault (.header inner)
  | _ => fault (.form v)

mutual

/-- Reads an operand. -/
def decode (v : Value) : Except LoadError Expr :=
  let kind? := (v.field? "type").bind Value.string?
  if kind? = some "expression" then
    match h : v.field? "value" with
    | some inner =>
      have := Value.sizeOf_field? h
      decodeOperation inner
    | none => .error (.unsupportedExpression (.form .null))
  else decodeLeaf kind? v ((v.field? "value").getD .null)
termination_by 3 * sizeOf v

/-- Reads an operation. -/
def decodeOperation (v : Value) : Except LoadError Expr :=
  match (v.field? "op").bind Value.string? with
  | none => .error (.unsupportedExpression (.form v))
  | some op =>
    match UnaryOp.ofName? op, BinaryOp.ofName? op with
    | some op, _ => do return unary op (← decodeSide v "right")
    | none, some op => do
      let left ← decodeSide v "left"
      let right ← decodeSide v "right"
      return binary op left right
    | none, none => .error (.unsupportedExpression (.operator op))
termination_by 3 * sizeOf v + 2

/-- Reads one operand of an operation. -/
def decodeSide (v : Value) (side : String) : Except LoadError Expr :=
  match h : v.field? side with
  | some inner =>
    have := Value.sizeOf_field? h
    decode inner
  | none => .error (.unsupportedExpression (.form .null))
termination_by 3 * sizeOf v + 1

end

end Expr

end LiveSwitch
