import LiveSwitch.Packet.Basic
import LiveSwitch.RunError

/-!
# Expressions

Conditions and action primitives compute with words of 64 bits.  Arithmetic wraps around,
truth is one and falsehood zero, and a result is cut to the width of a field only when it
is written into one.  Both operands of an operator are always evaluated, the left one
first.

## Main definitions

* `Expr` — the expressions, with `UnaryOp` and `BinaryOp`.
* `Expr.eval`, `Expr.test` — the value of an expression.
* `Expr.fields` — the fields it reads, from left to right.
-/

namespace LiveSwitch

/-- Operators with one operand. -/
inductive UnaryOp where
  | not
  | complement
  /-- Whether a header is present. -/
  | valid
  /-- A conversion between truth values and numbers, which are the same words. -/
  | convert
  deriving DecidableEq, Repr, Inhabited

/-- Operators with two operands. -/
inductive BinaryOp where
  | add
  | sub
  | mul
  | mod
  | bitAnd
  | bitOr
  | bitXor
  | shiftLeft
  | shiftRight
  | eq
  | ne
  | lt
  | le
  | gt
  | ge
  | and
  | or
  deriving DecidableEq, Repr, Inhabited

/-- An expression. -/
inductive Expr where
  /-- A field, by its full name. -/
  | field (name : String)
  | const (value : UInt64)
  /-- An item of the action data. -/
  | data (index : Nat)
  /-- Whether a header is present. -/
  | header (name : String)
  | unary (op : UnaryOp) (operand : Expr)
  | binary (op : BinaryOp) (left right : Expr)
  deriving DecidableEq, Repr, Inhabited

/-- The word of a truth value. -/
def ofTruth (b : Bool) : UInt64 := if b then 1 else 0

namespace UnaryOp

/-- The value of an operator on a word. -/
def apply : UnaryOp → UInt64 → UInt64
  | not, v => ofTruth (v == 0)
  | complement, v => ~~~v
  | valid, v => ofTruth (v != 0)
  | convert, v => v

end UnaryOp

namespace BinaryOp

/-- The value of an operator on two words.  A shift by 64 or more leaves zero; a remainder
by zero has no value. -/
def apply : BinaryOp → UInt64 → UInt64 → Except RunError UInt64
  | add, l, r => .ok (l + r)
  | sub, l, r => .ok (l - r)
  | mul, l, r => .ok (l * r)
  | mod, l, r => if r = 0 then .error .divisionByZero else .ok (l % r)
  | bitAnd, l, r => .ok (l &&& r)
  | bitOr, l, r => .ok (l ||| r)
  | bitXor, l, r => .ok (l ^^^ r)
  | shiftLeft, l, r => .ok (if r < 64 then l <<< r else 0)
  | shiftRight, l, r => .ok (if r < 64 then l >>> r else 0)
  | eq, l, r => .ok (ofTruth (l == r))
  | ne, l, r => .ok (ofTruth (l != r))
  | lt, l, r => .ok (ofTruth (l < r))
  | le, l, r => .ok (ofTruth (l ≤ r))
  | gt, l, r => .ok (ofTruth (r < l))
  | ge, l, r => .ok (ofTruth (r ≤ l))
  | and, l, r => .ok (ofTruth (l != 0 && r != 0))
  | or, l, r => .ok (ofTruth (l != 0 || r != 0))

end BinaryOp

namespace Expr

/-- The value of an expression for a packet and the data of an action. -/
def eval (p : Packet) (data : List UInt64) : Expr → Except RunError UInt64
  | field name => .ok (p.field name)
  | const v => .ok v
  | .data i =>
    match data[i]? with
    | some v => .ok v
    | none => .error (.missingActionData i)
  | header name => .ok (ofTruth (p.isValid name))
  | unary op e => do
    let v ← e.eval p data
    return op.apply v
  | binary op l r => do
    let l ← l.eval p data
    let r ← r.eval p data
    op.apply l r

/-- The truth of an expression. -/
def test (p : Packet) (data : List UInt64) (e : Expr) : Except RunError Bool := do
  let v ← e.eval p data
  return v != 0

/-- The fields that an expression reads, from left to right. -/
def fields : Expr → List String
  | field name => [name]
  | const _ | .data _ | header _ => []
  | unary _ e => e.fields
  | binary _ l r => l.fields ++ r.fields

end Expr

end LiveSwitch
