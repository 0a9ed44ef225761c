import LiveSwitch.Expr.Basic
import Mathlib.Data.List.Basic

/-!
# What expressions depend on

The value of an expression depends on the fields that it lists, on the presence of the headers that
it mentions and on the action data, and on nothing else of a packet.  It has no value just if one of
its parts is at fault: action data that is not there, or a remainder by zero.  Operands are
evaluated from left to right and ahead of their operator, and all of them, so that the fault that
is reported is the first one in this order.

## Main definitions

* `Expr.headers` — the headers that an expression mentions.
* `Expr.parts` — the parts of an expression, in the order in which they are evaluated.
* `Expr.fault?` — what is wrong with a part where its own parts have values.

## Main results

* `Expr.eval_congr` — packets that agree on what an expression reads.
* `Expr.findSome?_fault?_parts` — the first fault among the parts is why there is no value.
* `Expr.eval_determined` — what the value and the failure of an expression depend on.
-/

namespace LiveSwitch

/-- Why a computation has no value. -/
def failure? {ε α : Type} : Except ε α → Option ε
  | .ok _ => none
  | .error e => some e

theorem failure?_eq_some {ε α : Type} {x : Except ε α} {e : ε} :
    failure? x = some e ↔ x = .error e := by
  cases x <;> simp [failure?]

namespace Expr

/-- The headers that an expression mentions, from left to right. -/
def headers : Expr → List String
  | header name => [name]
  | field _ | const _ | .data _ => []
  | unary _ e => e.headers
  | binary _ l r => l.headers ++ r.headers

/-- The parts of an expression, an operator after its operands. -/
def parts : Expr → List Expr
  | unary op e => e.parts ++ [unary op e]
  | binary op l r => l.parts ++ r.parts ++ [binary op l r]
  | e => [e]

/-- What is wrong with a part itself: it is an item of action data that is not there, or a remainder
whose divisor is zero. -/
def fault? (p : Packet) (data : List UInt64) : Expr → Option RunError
  | .data i => if data.length ≤ i then some (.missingActionData i) else none
  | binary .mod _ r => if r.eval p data = .ok 0 then some .divisionByZero else none
  | _ => none

variable {p q : Packet} {data : List UInt64}

/-- Packets that agree on the fields and the headers of an expression give it the same value. -/
theorem eval_congr {e : Expr} (hfields : ∀ f ∈ e.fields, p.field f = q.field f)
    (hheaders : ∀ h ∈ e.headers, p.isValid h = q.isValid h) : e.eval p data = e.eval q data := by
  induction e with
  | field name => exact congrArg Except.ok (hfields name List.mem_cons_self)
  | const | data => rfl
  | header name => exact congrArg (Except.ok <| ofTruth ·) (hheaders name List.mem_cons_self)
  | unary op e ih => rw [eval, eval, ih hfields hheaders]
  | binary op l r ihl ihr =>
    have hl := ihl (fun f hf => hfields f (List.mem_append_left _ hf))
      fun h hh => hheaders h (List.mem_append_left _ hh)
    have hr := ihr (fun f hf => hfields f (List.mem_append_right _ hf))
      fun h hh => hheaders h (List.mem_append_right _ hh)
    rw [eval, eval, hl, hr]

/-- An operator on two values fails just if it is a remainder by zero. -/
theorem failure?_apply {op : BinaryOp} {l r : Expr} {v w : UInt64} (hr : r.eval p data = .ok w) :
    failure? (op.apply v w) = (binary op l r).fault? p data := by
  cases op with
  | mod =>
    rw [fault?, hr, BinaryOp.apply]
    by_cases hw : w = 0 <;> simp [hw, failure?]
  | _ => rfl

/-- The first fault among the parts of an expression is why it has no value. -/
theorem findSome?_fault?_parts (e : Expr) :
    e.parts.findSome? (fault? p data) = failure? (e.eval p data) := by
  induction e with
  | field | const | header => rfl
  | data i =>
    simp only [parts, List.findSome?_singleton, fault?, eval]
    by_cases hi : data.length ≤ i
    · simp [hi, failure?]
    · simp [hi, failure?, List.getElem?_eq_getElem (Nat.lt_of_not_le hi)]
  | unary op e ih =>
    rw [parts, List.findSome?_append, ih, eval]
    cases e.eval p data <;> rfl
  | binary op l r ihl ihr =>
    rw [parts, List.findSome?_append, List.findSome?_append, ihl, ihr, eval]
    cases hl : l.eval p data with
    | error err => rfl
    | ok v =>
      cases hr : r.eval p data with
      | error err => rfl
      | ok w =>
        show (List.findSome? _ [binary op l r]) = failure? (op.apply v w)
        rw [List.findSome?_singleton, failure?_apply hr]

/-- The value of an expression depends on the fields that it lists, on the presence of the headers
that it mentions and on the action data alone.  It fails just if a part of it is at fault, and then
with the first fault in the order of evaluation. -/
theorem eval_determined (e : Expr) :
    (∀ p q data, (∀ f ∈ e.fields, p.field f = q.field f) →
      (∀ h ∈ e.headers, p.isValid h = q.isValid h) → e.eval p data = e.eval q data) ∧
    (∀ p data, (∃ err, e.eval p data = .error err) ↔ ∃ x ∈ e.parts, x.fault? p data ≠ none) ∧
    (∀ p data err, e.eval p data = .error err ↔
      ∃ before x after, e.parts = before ++ x :: after ∧ (∀ y ∈ before, y.fault? p data = none) ∧
        x.fault? p data = some err) := by
  refine ⟨fun p q data hfields hheaders => eval_congr hfields hheaders, fun p data => ?_,
    fun p data err => ?_⟩
  · have hsome : (∃ err, e.eval p data = .error err) ↔
        (e.parts.findSome? (fault? p data)).isSome := by
      rw [findSome?_fault?_parts, Option.isSome_iff_exists]
      exact exists_congr fun err => failure?_eq_some.symm
    rw [hsome]
    simp [Option.isSome_iff_ne_none]
  · rw [← failure?_eq_some, ← findSome?_fault?_parts, List.findSome?_eq_some_iff]
    constructor
    · rintro ⟨before, x, after, hparts, hx, hbefore⟩
      exact ⟨before, x, after, hparts, hbefore, hx⟩
    · rintro ⟨before, x, after, hparts, hbefore, hx⟩
      exact ⟨before, x, after, hparts, hx, hbefore⟩

/-- A disjunction whose left operand is true and whose right one has two faults, for two packets
that differ in what it does not read. -/
theorem eval_determined_of_two_faults :
    let remainder : Expr := .binary .mod (.const 7) (.field "h.x")
    let e : Expr := .binary .or (.header "h") (.binary .add remainder (.data 2))
    let p : Packet := { validHeaders := ["h"] }
    let q : Packet := { fields := [("m.y", 3)], validHeaders := ["m", "h"], port := 1 }
    e.eval p [] = .error .divisionByZero ∧ e.eval q [] = .error .divisionByZero := by
  intro remainder e p q
  obtain ⟨hagree, -, hfails⟩ := eval_determined e
  have hp : e.eval p [] = .error .divisionByZero :=
    (hfails p [] _).mpr ⟨[.header "h", .const 7, .field "h.x"], remainder, _, rfl, by decide, rfl⟩
  have hqp : e.eval q [] = e.eval p [] := hagree q p [] (by decide) (by decide)
  exact ⟨hp, hqp.trans hp⟩

end Expr

end LiveSwitch
