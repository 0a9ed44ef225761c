/-!
# Unsigned numerals

Counts in plans and constants in documents are unsigned numerals: digits of a base,
with one optional `+` ahead of them.  Leading zeros are fine; an empty run of digits, a
sign on its own, a minus sign and a digit separator are not.

## Main definitions

* `digit?` — the value of one digit of a base.
* `numeral?` — the value of a whole numeral.
* `Constant.parse?`, `Constant.text` — the two directions between 64-bit words and the
  texts of constants.
-/

namespace LiveSwitch.Text

/-- The value of `c` as a digit of `base`; letters count from ten in either case. -/
def digit? (base : Nat) (c : Char) : Option Nat :=
  let value? :=
    if '0' ≤ c ∧ c ≤ '9' then some (c.toNat - '0'.toNat)
    else if 'a' ≤ c ∧ c ≤ 'z' then some (c.toNat - 'a'.toNat + 10)
    else if 'A' ≤ c ∧ c ≤ 'Z' then some (c.toNat - 'A'.toNat + 10)
    else none
  value?.filter (· < base)

/-- The value of a run of digits read after `acc`. -/
def digits? (base : Nat) (acc : Nat) : List Char → Option Nat
  | [] => some acc
  | c :: cs => (digit? base c).bind fun d => digits? base (acc * base + d) cs

/-- The value of a numeral: digits, at least one, with one optional `+` ahead. -/
def numeral? (base : Nat) (cs : List Char) : Option Nat :=
  let ds := match cs with
    | '+' :: r => r
    | r => r
  if ds.isEmpty then none else digits? base 0 ds

/-- The value of a decimal numeral below `bound`. -/
def decimalBelow? (bound : Nat) (s : String) : Option Nat :=
  (numeral? 10 s.toList).filter (· < bound)

end LiveSwitch.Text

namespace LiveSwitch.Constant

open Text

/-- Reads a constant: hexadecimal after `0x` or `0X`, decimal otherwise.  A value that
does not fit in 64 bits is refused. -/
def parse? (s : String) : Option UInt64 :=
  let value? := match s.toList with
    | '0' :: 'x' :: ds => numeral? 16 ds
    | '0' :: 'X' :: ds => numeral? 16 ds
    | ds => numeral? 10 ds
  (value?.filter (· < UInt64.size)).map UInt64.ofNat

/-- Writes a constant in lower-case hexadecimal, without leading zeros. -/
def text (v : UInt64) : String :=
  "0x" ++ String.ofList (Nat.toDigits 16 v.toNat)

end LiveSwitch.Constant
