import LiveSwitch.Hash.Crc
import Mathlib.Algebra.CharP.Two
import Mathlib.Algebra.Field.ZMod
import Mathlib.Algebra.Polynomial.FieldDivision
import Mathlib.RingTheory.AdjoinRoot

/-!
# Checks as polynomial remainders

The bits of a register are the coefficients of a polynomial over the field of two elements, and so
are the bits of a message.  A shift of a forward check multiplies its register by `X` modulo the
generator of the check; after a whole message the register is a remainder.  A reflected check does
the same with every register, and every byte of the message, read from the other end.

## Main definitions

* `bitPoly`, `messagePoly` — the polynomials of a register and of a message.
* `Crc.generator` — the polynomial that a check divides by.
* `flipBits` — a byte with its bits in reverse.

## Main results

* `Crc.bitPoly_forward` — a forward check leaves the remainder of its message.
* `Crc.reverse_reflected` — a reflected check is the forward check of the flipped bytes, in reverse.
* `crc_eq_remainder` — the two checks of 16 bits and the polynomials of their remainders.
-/

namespace LiveSwitch.Hash

open Polynomial

variable {w : Nat}

/-- The polynomial with the bits of a register as its coefficients. -/
noncomputable def bitPoly (r : BitVec w) : (ZMod 2)[X] :=
  ∑ i ∈ Finset.range w, if r.getLsbD i then X ^ i else 0

/-- The polynomial of the bits of a message; its first bit is the leading coefficient. -/
noncomputable def messagePoly : List UInt8 → (ZMod 2)[X]
  | [] => 0
  | b :: message => bitPoly b.toBitVec * X ^ (8 * message.length) + messagePoly message

/-- A byte with its bits in reverse. -/
def flipBits (b : UInt8) : UInt8 := ⟨b.toBitVec.reverse⟩

/-! ### The polynomial of a register -/

@[simp] theorem coeff_bitPoly (r : BitVec w) (n : Nat) :
    (bitPoly r).coeff n = if r.getLsbD n then 1 else 0 := by
  have hterm : ∀ i, (if r.getLsbD i then (X : (ZMod 2)[X]) ^ i else 0).coeff n =
      if n = i then (if r.getLsbD i then 1 else 0) else 0 := by
    intro i
    split
    · rw [coeff_X_pow]
    · rw [coeff_zero, ite_self]
  rw [bitPoly, finsetSum_coeff]
  simp only [hterm, Finset.sum_ite_eq, Finset.mem_range]
  split
  case isTrue => rfl
  case isFalse hn => rw [BitVec.getLsbD_of_ge r n (by omega), if_neg Bool.false_ne_true]

theorem degree_bitPoly_lt (r : BitVec w) : (bitPoly r).degree < w := by
  rw [degree_lt_iff_coeff_zero]
  intro n hn
  rw [coeff_bitPoly, BitVec.getLsbD_of_ge r n hn, if_neg Bool.false_ne_true]

@[simp] theorem bitPoly_zero : bitPoly 0#w = 0 := by
  ext n
  rw [coeff_bitPoly, BitVec.getLsbD_zero, if_neg Bool.false_ne_true, coeff_zero]

theorem bitPoly_twoPow {i : Nat} (hi : i < w) : bitPoly (BitVec.twoPow w i) = X ^ i := by
  ext n
  rw [coeff_bitPoly, coeff_X_pow, BitVec.getLsbD_twoPow]
  simp [hi, eq_comm]

theorem bitPoly_xor (r r' : BitVec w) : bitPoly (r ^^^ r') = bitPoly r + bitPoly r' := by
  ext n
  rw [coeff_add, coeff_bitPoly, coeff_bitPoly, coeff_bitPoly, BitVec.getLsbD_xor]
  cases r.getLsbD n <;> cases r'.getLsbD n <;> decide

/-- A shift multiplies by `X`, apart from the bit that leaves at the top. -/
theorem bitPoly_mul_X (hw : 0 < w) (r : BitVec w) :
    bitPoly r * X = bitPoly (r <<< 1) + if r.msb then X ^ w else 0 := by
  ext n
  rw [coeff_add, coeff_bitPoly, BitVec.getLsbD_shiftLeft, apply_ite (coeff · n), coeff_X_pow,
    coeff_zero, BitVec.msb_eq_getLsbD_last]
  cases n with
  | zero => simp [hw.ne]
  | succ n =>
    rw [coeff_mul_X, coeff_bitPoly]
    rcases lt_trichotomy (n + 1) w with hlt | rfl | hgt
    · simp [hlt, hlt.ne]
    · simp
    · have hge : r.getLsbD n = false := BitVec.getLsbD_of_ge r n (by omega)
      simp [hge, hgt.not_gt, hgt.ne']

/-- A byte that comes in at the top of the register. -/
theorem bitPoly_setWidth_shiftLeft (hw : 8 ≤ w) (b : BitVec 8) :
    bitPoly (b.setWidth w <<< (w - 8)) = bitPoly b * X ^ (w - 8) := by
  ext n
  rw [coeff_mul_X_pow', coeff_bitPoly, coeff_bitPoly, BitVec.getLsbD_shiftLeft,
    BitVec.getLsbD_setWidth]
  by_cases hn : w - 8 ≤ n
  · rw [if_pos hn]
    by_cases hlt : n < w
    · have hin : n - (w - 8) < w := by omega
      simp [hlt, hin, hn]
    · have hge : b.getLsbD (n - (w - 8)) = false := BitVec.getLsbD_of_ge b _ (by omega)
      simp [hge]
  · simp [hn]

namespace Crc

/-- The polynomial that a check divides by; its leading coefficient has no bit in the register. -/
noncomputable def generator (poly : BitVec w) : (ZMod 2)[X] := X ^ w + bitPoly poly

theorem monic_generator (poly : BitVec w) : (generator poly).Monic :=
  monic_X_pow_add (degree_bitPoly_lt poly)

theorem degree_generator (poly : BitVec w) : (generator poly).degree = w := by
  rw [generator, degree_add_eq_left_of_degree_lt, degree_X_pow]
  rw [degree_X_pow]
  exact degree_bitPoly_lt poly

theorem generator_twoPow (hw : 0 < w) {i j : Nat} (hi : i < w) (hj : j < w) :
    generator (.twoPow w i ^^^ .twoPow w j ^^^ .twoPow w 0) = X ^ w + X ^ i + X ^ j + 1 := by
  rw [generator, bitPoly_xor, bitPoly_xor, bitPoly_twoPow hi, bitPoly_twoPow hj,
    bitPoly_twoPow hw, pow_zero, add_assoc, add_assoc, add_assoc]

/-! ### Forward checks -/

theorem bitPoly_forwardStep (hw : 0 < w) (poly r : BitVec w) :
    bitPoly (forwardStep poly r) = bitPoly r * X + if r.msb then generator poly else 0 := by
  rw [bitPoly_mul_X hw, forwardStep, generator]
  split
  · have htwice : (X : (ZMod 2)[X]) ^ w + X ^ w = 0 := CharTwo.add_self_eq_zero _
    rw [bitPoly_xor, add_assoc, ← add_assoc (X ^ w), htwice, zero_add]
  · rw [add_zero, add_zero]

/-- In the ring of remainders, a shift multiplies by `X`. -/
theorem mk_forwardStep (hw : 0 < w) (poly r : BitVec w) :
    AdjoinRoot.mk (generator poly) (bitPoly (forwardStep poly r)) =
      AdjoinRoot.mk (generator poly) (bitPoly r * X) := by
  rw [bitPoly_forwardStep hw, map_add, apply_ite (AdjoinRoot.mk _), AdjoinRoot.mk_self, map_zero,
    ite_self, add_zero]

theorem mk_steps (hw : 0 < w) (poly r : BitVec w) (n : Nat) :
    AdjoinRoot.mk (generator poly) (bitPoly (steps (forwardStep poly) n r)) =
      AdjoinRoot.mk (generator poly) (bitPoly r * X ^ n) := by
  induction n generalizing r with
  | zero => rw [steps, pow_zero, mul_one]
  | succ n ih => rw [steps, ih, map_mul, mk_forwardStep hw, ← map_mul, mul_assoc, ← pow_succ']

theorem mk_forwardByte (hw : 8 ≤ w) (poly r : BitVec w) (b : UInt8) :
    AdjoinRoot.mk (generator poly) (bitPoly (forwardByte poly r b)) =
      AdjoinRoot.mk (generator poly) (bitPoly r * X ^ 8 + bitPoly b.toBitVec * X ^ w) := by
  rw [forwardByte, mk_steps (by omega), bitPoly_xor, bitPoly_setWidth_shiftLeft hw, add_mul,
    mul_assoc, ← pow_add, Nat.sub_add_cancel hw]

/-- The start of the register stands ahead of the message, the later bytes behind it. -/
theorem mk_forward (hw : 8 ≤ w) (poly start : BitVec w) (message : List UInt8) :
    AdjoinRoot.mk (generator poly) (bitPoly (forward poly start message)) =
      AdjoinRoot.mk (generator poly)
        (messagePoly message * X ^ w + bitPoly start * X ^ (8 * message.length)) := by
  induction message generalizing start with
  | nil => simp [forward, messagePoly]
  | cons b message ih =>
    have hlater : messagePoly message * X ^ w +
        (bitPoly start * X ^ 8 + bitPoly b.toBitVec * X ^ w) * X ^ (8 * message.length) =
          messagePoly (b :: message) * X ^ w + bitPoly start * X ^ (8 * (b :: message).length) := by
      rw [messagePoly, List.length_cons, Nat.mul_succ]
      ring
    rw [forward, List.foldl_cons, ← forward, ih, map_add, map_mul _ (bitPoly _),
      mk_forwardByte hw, ← map_mul, ← map_add, hlater]

/-- A forward check leaves the remainder of its message. -/
theorem bitPoly_forward (hw : 8 ≤ w) (poly start : BitVec w) (message : List UInt8) :
    bitPoly (forward poly start message) =
      (messagePoly message * X ^ w + bitPoly start * X ^ (8 * message.length)) %
        generator poly := by
  obtain ⟨q, hq⟩ := AdjoinRoot.mk_eq_mk.mp (mk_forward hw poly start message).symm
  have hdegree : (bitPoly (forward poly start message)).degree < (generator poly).degree := by
    rw [degree_generator]
    exact degree_bitPoly_lt _
  rw [← modByMonic_eq_mod _ (monic_generator poly)]
  refine (div_modByMonic_unique q _ (monic_generator poly) ⟨?_, hdegree⟩).2.symm
  rw [← hq, add_sub_cancel]

/-! ### Reflected checks -/

theorem reverse_xor (r r' : BitVec w) : (r ^^^ r').reverse = r.reverse ^^^ r'.reverse := by
  refine BitVec.eq_of_getLsbD_eq fun i hi => ?_
  simp only [BitVec.getLsbD_reverse, BitVec.getLsbD_xor, BitVec.getMsbD_xor]

theorem reverse_ushiftRight_one (r : BitVec w) : (r >>> 1).reverse = r.reverse <<< 1 := by
  refine BitVec.eq_of_getLsbD_eq fun i hi => ?_
  rw [BitVec.getLsbD_reverse, BitVec.getLsbD_shiftLeft, BitVec.getLsbD_reverse,
    BitVec.getMsbD_ushiftRight, Bool.and_assoc]

/-- A byte at the bottom of a register is the flipped byte at the top of the flipped register. -/
theorem reverse_setWidth (hw : 8 ≤ w) (b : BitVec 8) :
    (b.setWidth w).reverse = b.reverse.setWidth w <<< (w - 8) := by
  refine BitVec.eq_of_getLsbD_eq fun i hi => ?_
  rw [BitVec.getLsbD_reverse, BitVec.getMsbD_eq_getLsbD, BitVec.getLsbD_setWidth,
    BitVec.getLsbD_shiftLeft, BitVec.getLsbD_setWidth, BitVec.getLsbD_reverse,
    BitVec.getMsbD_eq_getLsbD]
  by_cases h : i < w - 8
  · have hge : b.getLsbD (w - 1 - i) = false := BitVec.getLsbD_of_ge b _ (by omega)
    simp [hge, h]
  · have hindex : w - 1 - i = 8 - 1 - (i - (w - 8)) := by omega
    have hfrom : 8 - 1 - (i - (w - 8)) < w := by omega
    have hto : i - (w - 8) < w := by omega
    have hbyte : i - (w - 8) < 8 := by omega
    simp [*]

theorem reverse_reflectedStep (poly r : BitVec w) :
    (reflectedStep poly r).reverse = forwardStep poly.reverse r.reverse := by
  rw [reflectedStep, forwardStep, BitVec.msb_reverse, apply_ite BitVec.reverse, reverse_xor,
    reverse_ushiftRight_one]

theorem reverse_steps (poly r : BitVec w) (n : Nat) :
    (steps (reflectedStep poly) n r).reverse = steps (forwardStep poly.reverse) n r.reverse := by
  induction n generalizing r with
  | zero => rfl
  | succ n ih => rw [steps, steps, ih, reverse_reflectedStep]

theorem reverse_reflectedByte (hw : 8 ≤ w) (poly r : BitVec w) (b : UInt8) :
    (reflectedByte poly r b).reverse = forwardByte poly.reverse r.reverse (flipBits b) := by
  rw [reflectedByte, reverse_steps, reverse_xor, reverse_setWidth hw]
  rfl

/-- A reflected check is the forward check of the flipped bytes, in reverse. -/
theorem reverse_reflected (hw : 8 ≤ w) (poly start : BitVec w) (message : List UInt8) :
    (reflected poly start message).reverse =
      forward poly.reverse start.reverse (message.map flipBits) := by
  induction message generalizing start with
  | nil => rfl
  | cons b message ih =>
    rw [reflected, List.foldl_cons, ← reflected, ih, reverse_reflectedByte hw]
    rfl

end Crc

/-! ### The checks of 16 bits -/

theorem generator_crcCcitt : Crc.generator 0x1021#16 = X ^ 16 + X ^ 12 + X ^ 5 + 1 := by
  have hbits : 0x1021#16 = .twoPow 16 12 ^^^ .twoPow 16 5 ^^^ .twoPow 16 0 := by decide
  rw [hbits, Crc.generator_twoPow (by decide) (by decide) (by decide)]

/-- The polynomial of `crc16` is written into the code in reverse. -/
theorem generator_crc16 :
    Crc.generator (0xA001#16).reverse = X ^ 16 + X ^ 15 + X ^ 2 + 1 := by
  have hbits : (0xA001#16).reverse = .twoPow 16 15 ^^^ .twoPow 16 2 ^^^ .twoPow 16 0 := by decide
  rw [hbits, Crc.generator_twoPow (by decide) (by decide) (by decide)]

/-- The two checks of 16 bits are remainders: of the message behind sixteen ones, and of the
message with flipped bytes, where the register is read in reverse. -/
theorem crc_eq_remainder (message : List UInt8) :
    bitPoly (crcCcitt message) =
        (messagePoly message * X ^ 16 + bitPoly 0xFFFF#16 * X ^ (8 * message.length)) %
          (X ^ 16 + X ^ 12 + X ^ 5 + 1) ∧
      bitPoly (crc16 message).reverse =
        messagePoly (message.map flipBits) * X ^ 16 % (X ^ 16 + X ^ 15 + X ^ 2 + 1) := by
  have hstart : (0#16).reverse = 0#16 := by decide
  constructor
  · rw [crcCcitt, Crc.bitPoly_forward (by decide), generator_crcCcitt]
  · rw [crc16, Crc.reverse_reflected (by decide), Crc.bitPoly_forward (by decide),
      generator_crc16, hstart, bitPoly_zero, zero_mul, add_zero]

end LiveSwitch.Hash
