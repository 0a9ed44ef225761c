import LiveSwitch.Proofs.Program.Effects

/-!
# Expressions in narrow words

A program computes in words of 64 bits and cuts a result only when it is written into a field.
In an expression of sums, differences, products, bitwise operators and shifts to the left by a
constant the low bits of a value depend on the low bits of its operands only.  So it makes no
difference whether the bits above a width are dropped at the end or at every step: what the field
gets is what arithmetic in words of its own width gives.

## Main definitions

* `lowBits` — the low bits of a word.
* `Expr.evalAt` — the value of an expression in words of some width.
* `Expr.Modular` — the expressions that may be cut late.

## Main results

* `Expr.evalAt_eq_eval` — in words of 64 bits an expression has the value that it has.
* `Expr.Modular.evalAt_eq` — a modular expression in narrow words.
* `Expr.late_truncation_sound` — a modular expression and the field that it is assigned to.
-/

namespace LiveSwitch

/-- The low bits of a word. -/
def lowBits (w : Nat) (v : UInt64) : BitVec w := v.toBitVec.setWidth w

/-! ### Words of some width -/

/-- The word of a truth value. -/
def bitsOfTruth (w : Nat) (b : Bool) : BitVec w := if b then 1 else 0

/-- The value of an operator on a word of some width. -/
def UnaryOp.applyAt {w : Nat} : UnaryOp → BitVec w → BitVec w
  | not, v => bitsOfTruth w (v == 0)
  | complement, v => ~~~v
  | valid, v => bitsOfTruth w (v != 0)
  | convert, v => v

/-- The value of an operator on two words of some width.  A shift by the width or more leaves zero;
a remainder by zero has no value. -/
def BinaryOp.applyAt {w : Nat} : BinaryOp → BitVec w → BitVec w → Except RunError (BitVec w)
  | add, l, r => .ok (l + r)
  | sub, l, r => .ok (l - r)
  | mul, l, r => .ok (l * r)
  | mod, l, r => if r = 0 then .error .divisionByZero else .ok (l % r)
  | bitAnd, l, r => .ok (l &&& r)
  | bitOr, l, r => .ok (l ||| r)
  | bitXor, l, r => .ok (l ^^^ r)
  | shiftLeft, l, r => .ok (l <<< r)
  | shiftRight, l, r => .ok (l >>> r)
  | eq, l, r => .ok (bitsOfTruth w (l == r))
  | ne, l, r => .ok (bitsOfTruth w (l != r))
  | lt, l, r => .ok (bitsOfTruth w (l < r))
  | le, l, r => .ok (bitsOfTruth w (l ≤ r))
  | gt, l, r => .ok (bitsOfTruth w (r < l))
  | ge, l, r => .ok (bitsOfTruth w (r ≤ l))
  | and, l, r => .ok (bitsOfTruth w (l != 0 && r != 0))
  | or, l, r => .ok (bitsOfTruth w (l != 0 || r != 0))

/-- The operators of modular arithmetic: sums, differences, products and bitwise operators. -/
def BinaryOp.modular : List BinaryOp := [add, sub, mul, bitAnd, bitOr, bitXor]

namespace Expr

/-- The value of an expression in words of some width: what it reads is cut to the width, and
every operator works on words of it.  A constant amount of a shift is no such word and is taken as
it stands. -/
def evalAt (w : Nat) (p : Packet) (data : List UInt64) : Expr → Except RunError (BitVec w)
  | field name => .ok (lowBits w (p.field name))
  | const v => .ok (lowBits w v)
  | .data i =>
    match data[i]? with
    | some v => .ok (lowBits w v)
    | none => .error (.missingActionData i)
  | header name => .ok (bitsOfTruth w (p.isValid name))
  | unary op e => do
    let v ← e.evalAt w p data
    return op.applyAt v
  | binary .shiftLeft e (.const k) => do
    let v ← e.evalAt w p data
    return v <<< k.toNat
  | binary op l r => do
    let l ← l.evalAt w p data
    let r ← r.evalAt w p data
    op.applyAt l r

/-- The expressions of modular arithmetic: fields, constants and action data under modular
operators, conversions and shifts to the left by a constant. -/
inductive Modular : Expr → Prop where
  | field (name : String) : Modular (.field name)
  | const (v : UInt64) : Modular (.const v)
  | data (i : Nat) : Modular (.data i)
  | complement {e : Expr} (he : Modular e) : Modular (.unary .complement e)
  | convert {e : Expr} (he : Modular e) : Modular (.unary .convert e)
  | binary {op : BinaryOp} {l r : Expr}
    (hop : op ∈ BinaryOp.modular)
    (hl : Modular l) (hr : Modular r) : Modular (.binary op l r)
  | shift {e : Expr} (he : Modular e) (k : UInt64) : Modular (.binary .shiftLeft e (.const k))

end Expr

/-! ### Operators and low bits -/

section

variable {w : Nat}

theorem toNat_lowBits (v : UInt64) : (lowBits w v).toNat = v.toNat % 2 ^ w :=
  BitVec.toNat_setWidth ..

theorem lowBits_shiftLeft (hw : w ≤ 64) (v k : UInt64) :
    lowBits w (if k < 64 then v <<< k else 0) = lowBits w v <<< k.toNat := by
  split
  case isTrue hk =>
    have hmod : k.toNat % 64 = k.toNat := Nat.mod_eq_of_lt (UInt64.lt_iff_toNat_lt.mp hk)
    simp [lowBits, hw, hmod]
  case isFalse hk =>
    -- all bits leave the word of 64 bits, and so the narrower one
    have hle : w ≤ k.toNat := by
      have := UInt64.lt_iff_toNat_lt.not.mp hk
      simp at this
      omega
    simp [lowBits, hle]

theorem lowBits_sub (hw : w ≤ 64) (l r : UInt64) :
    lowBits w (l - r) = lowBits w l - lowBits w r := by
  simp [lowBits, BitVec.sub_eq_add_neg, BitVec.neg_eq_not_add, BitVec.setWidth_add _ _ hw, hw]

/-- The low bits of the value of a modular operator are what the operator makes of the low
bits. -/
theorem BinaryOp.applyAt_lowBits (hw : w ≤ 64) {op : BinaryOp}
    (hop : op ∈ modular) (l r : UInt64) :
    op.applyAt (lowBits w l) (lowBits w r) = (op.apply l r).map (lowBits w) := by
  simp only [modular, List.mem_cons, List.not_mem_nil, or_false] at hop
  rcases hop with rfl | rfl | rfl | rfl | rfl | rfl
  · exact congrArg Except.ok (BitVec.setWidth_add _ _ hw).symm
  · exact congrArg Except.ok (lowBits_sub hw l r).symm
  · exact congrArg Except.ok (BitVec.setWidth_mul _ _ hw).symm
  · exact congrArg Except.ok BitVec.setWidth_and.symm
  · exact congrArg Except.ok BitVec.setWidth_or.symm
  · exact congrArg Except.ok BitVec.setWidth_xor.symm

/-- What a field keeps of a value are the low bits in the width of the field. -/
theorem Program.cutField_eq {g : Program} {target : String} (hw : w ≤ 64)
    (hwidth : (g.layout.width? target).getD 64 = w) (v : UInt64) :
    g.cutField target v = .ofBitVec ((lowBits w v).setWidth 64) := by
  have hpow : 2 ^ w ≤ 2 ^ 64 := Nat.pow_le_pow_right Nat.two_pos hw
  have hlt : v.toNat % 2 ^ w < 2 ^ w := Nat.mod_lt _ (Nat.two_pow_pos w)
  have hnarrow : ((lowBits w v).setWidth 64).toNat = v.toNat % 2 ^ w := by
    rw [BitVec.toNat_setWidth, toNat_lowBits, Nat.mod_eq_of_lt (by omega)]
  rw [cutField, Layout.mask, hwidth, ← UInt64.toNat_inj, toNat_and_widthMask, Nat.min_eq_left hw]
  exact hnarrow.symm

theorem lowBits_64 (v : UInt64) : lowBits 64 v = v.toBitVec := BitVec.setWidth_eq _

theorem bitsOfTruth_64 (b : Bool) : bitsOfTruth 64 b = lowBits 64 (ofTruth b) := by
  cases b <;> rfl

theorem lowBits_64_beq (a b : UInt64) : (lowBits 64 a == lowBits 64 b) = (a == b) := by
  rw [lowBits_64, lowBits_64, Bool.eq_iff_iff, beq_iff_eq, beq_iff_eq]
  exact UInt64.toBitVec_inj

theorem lowBits_64_beq_zero (a : UInt64) : (lowBits 64 a == 0) = (a == 0) := lowBits_64_beq a 0

/-- In words of 64 bits the operators are those of the program. -/
theorem UnaryOp.applyAt_64 (op : UnaryOp) (v : UInt64) :
    op.applyAt (lowBits 64 v) = lowBits 64 (op.apply v) := by
  cases op with
  | complement => rw [applyAt, apply, lowBits_64, lowBits_64, UInt64.toBitVec_not]
  | convert => rfl
  | _ => simp only [applyAt, apply, bne, lowBits_64_beq_zero, bitsOfTruth_64]

theorem BinaryOp.applyAt_64 (op : BinaryOp) (l r : UInt64) :
    op.applyAt (lowBits 64 l) (lowBits 64 r) = (op.apply l r).map (lowBits 64) := by
  cases op with
  | add | sub | mul | bitAnd | bitOr | bitXor => simp [applyAt, apply, lowBits_64, Except.map]
  | mod =>
    have hzero : (lowBits 64 r = 0) = (r = 0) := by
      have := lowBits_64_beq_zero r
      simpa using this
    simp only [applyAt, apply, hzero]
    split
    · rfl
    · simp [lowBits_64, Except.map]
  | shiftLeft =>
    exact congrArg Except.ok (lowBits_shiftLeft (Nat.le_refl 64) l r).symm
  | shiftRight =>
    simp only [applyAt, apply, Except.map, lowBits_64, BitVec.ushiftRight_eq',
      UInt64.toNat_toBitVec]
    split
    case isTrue hr =>
      have hmod : r.toNat % 64 = r.toNat := Nat.mod_eq_of_lt (UInt64.lt_iff_toNat_lt.mp hr)
      simp [hmod]
    case isFalse hr =>
      have hle : 64 ≤ r.toNat := Nat.le_of_not_lt (UInt64.lt_iff_toNat_lt.not.mp hr)
      simp [BitVec.ushiftRight_eq_zero hle]
  | eq | ne | and | or =>
    simp only [applyAt, apply, bne, lowBits_64_beq, lowBits_64_beq_zero, bitsOfTruth_64, Except.map]
  | lt | le | gt | ge =>
    simp only [applyAt, apply, bitsOfTruth_64, Except.map, lowBits_64, UInt64.lt_iff_toBitVec_lt,
      UInt64.le_iff_toBitVec_le]

end

namespace Expr

variable {w : Nat} {p : Packet} {data : List UInt64} {e : Expr} {v : UInt64}

theorem evalAt_binary {op : BinaryOp} (h : op ≠ .shiftLeft) (l r : Expr) :
    (binary op l r).evalAt w p data = (do
      let l ← l.evalAt w p data
      let r ← r.evalAt w p data
      op.applyAt l r) := by
  cases op <;> first | rfl | exact absurd rfl h

/-- In words of 64 bits an expression has the value that it has. -/
theorem evalAt_eq_eval (e : Expr) : e.evalAt 64 p data = (e.eval p data).map (lowBits 64) := by
  induction e with
  | field | const => rfl
  | data i =>
    rw [evalAt, eval]
    cases data[i]? <;> rfl
  | header name => exact congrArg Except.ok (bitsOfTruth_64 (p.isValid name))
  | unary op e ih =>
    rw [evalAt, eval, ih]
    cases e.eval p data with
    | error err => rfl
    | ok v => exact congrArg Except.ok (op.applyAt_64 v)
  | binary op l r ihl ihr =>
    have hoperands : (do
        let l ← l.evalAt 64 p data
        let r ← r.evalAt 64 p data
        op.applyAt l r) = ((binary op l r).eval p data).map (lowBits 64) := by
      rw [eval, ihl, ihr]
      cases l.eval p data with
      | error err => rfl
      | ok vl =>
        cases r.eval p data with
        | error err => rfl
        | ok vr => exact op.applyAt_64 vl vr
    rw [← hoperands]
    by_cases hop : op = .shiftLeft
    · -- an amount that is a word of 64 bits is the same as it stands
      subst hop
      cases r <;> rfl
    · exact evalAt_binary hop l r

/-- The value of a modular expression in narrow words is its value, cut to the width. -/
theorem Modular.evalAt_eq (hw : w ≤ 64) (he : e.Modular) :
    e.evalAt w p data = (e.eval p data).map (lowBits w) := by
  induction he with
  | field | const => rfl
  | data i =>
    rw [evalAt, eval]
    cases data[i]? <;> rfl
  | @complement e he ih =>
    rw [evalAt, eval, ih]
    cases e.eval p data with
    | error err => rfl
    | ok v => exact congrArg Except.ok (BitVec.setWidth_not hw).symm
  | @convert e he ih =>
    rw [evalAt, eval, ih]
    cases e.eval p data <;> rfl
  | @binary op l r hop hl hr ihl ihr =>
    have hne : op ≠ .shiftLeft := by
      rintro rfl
      simp [BinaryOp.modular] at hop
    rw [evalAt_binary hne, eval, ihl, ihr]
    cases l.eval p data with
    | error err => rfl
    | ok vl =>
      cases r.eval p data with
      | error err => rfl
      | ok vr => exact BinaryOp.applyAt_lowBits hw hop vl vr
  | @shift e he k ih =>
    rw [evalAt, eval, ih]
    cases e.eval p data with
    | error err => rfl
    | ok v => exact congrArg Except.ok (lowBits_shiftLeft hw v k).symm

/-- Late truncation is sound.  Where a modular expression has a value, the low bits of that value
are what arithmetic in words of their number gives, with everything that is read and every
intermediate result cut to them; and a field that the expression is assigned to gets this result. -/
theorem late_truncation_sound (hw : w ≤ 64) (he : e.Modular) (h : e.eval p data = .ok v) :
    ∃ x : BitVec w, e.evalAt w p data = .ok x ∧ x.toNat = v.toNat % 2 ^ w ∧
      ∀ (g : Program) (target : String) (s : Store), (g.layout.width? target).getD 64 = w →
        ((Primitive.assign target e).run g data).run ⟨p, s⟩ =
          .ok () ⟨p.setField target (.ofBitVec (x.setWidth 64)), s⟩ := by
  refine ⟨lowBits w v, ?_, toNat_lowBits v, fun g target s hwidth => ?_⟩
  · rw [he.evalAt_eq hw, h]
    rfl
  · rw [Primitive.run_assign h, Program.cutField_eq hw hwidth]

/-- A sum that falls below zero, a product and two shifts, one of them by more than a word, in a
field of eight bits. -/
theorem late_truncation_of_eight_bits :
    let row : Expr := .binary .mul (.binary .sub (.field "m.row") (.const 3)) (.const 24)
    let mixed : Expr := .binary .bitAnd
      (.binary .bitXor row (.binary .shiftLeft (.data 0) (.const 6)))
      (.unary .complement (.binary .shiftLeft (.data 0) (.const 70)))
    let p : Packet := { fields := [("m.row", 1)] }
    let g : Program := { layout := { widths := [("m.cell", 8)] } }
    mixed.evalAt 8 p [5] = .ok 0x90 ∧
      ((Primitive.assign "m.cell" mixed).run g [5]).run ⟨p, {}⟩ =
        .ok () ⟨p.setField "m.cell" 0x90, {}⟩ := by
  intro row mixed p g
  have hrow : row.Modular :=
    .binary (by decide) (.binary (by decide) (.field _) (.const _)) (.const _)
  have hmodular : mixed.Modular :=
    .binary (by decide) (.binary (by decide) hrow (.shift (.data 0) 6))
      (.complement (.shift (.data 0) 70))
  have hword : mixed.eval p [5] = .ok 0xFFFFFFFFFFFFFE90 := by decide +kernel
  obtain ⟨x, hx, -, hassign⟩ := late_truncation_sound (w := 8) (by decide) hmodular hword
  have hvalue : mixed.evalAt 8 p [5] = .ok 0x90 := by decide +kernel
  obtain rfl : x = 0x90 := Except.ok.inj (hx.symm.trans hvalue)
  exact ⟨hvalue, hassign g "m.cell" {} rfl⟩

/-- A remainder has to be taken before the word is cut. -/
example : (binary .mod (.const 0x105) (.const 6)).eval {} [] = .ok 3 ∧
    (binary .mod (.const 0x105) (.const 6)).evalAt 8 {} [] = .ok 5 :=
  ⟨rfl, rfl⟩

end Expr

end LiveSwitch
