/-!
# Decimal texts of binary64 numbers

The text of a binary64 number has the fewest decimal digits that lead back to it, and of
those the digits nearest to it.  Everything here is integer arithmetic on the mantissa and
the exponent.

## Main definitions

* `Magnitude.ofBits` — the mantissa and the binary exponent behind the bits.
* `Magnitude.shortest` — the fewest digits, as an integer and a power of ten.
* `text` — the text of a finite number: positional between `1e-5` and `1e16`, with a
  signed exponent outside, such as `1e+16` and `1e-6`.
* `isTooLarge` — whether a decimal number has no finite number next to it.
-/

namespace LiveSwitch.Binary64

/-- The value `mantissa * 2 ^ exponent`. -/
structure Magnitude where
  mantissa : Nat
  exponent : Int
  /-- Whether the number below lies half as far away as the number above. -/
  narrowBelow : Bool
  deriving DecidableEq, Repr

/-- The leading bit of a normal mantissa, which the bits leave out. -/
def implicitBit : Nat := 0x10000000000000

/-- The magnitude of a finite number. -/
def Magnitude.ofBits (bits : UInt64) : Magnitude :=
  let fraction : Nat := bits.toNat % implicitBit
  let biased : Nat := bits.toNat / implicitBit % 0x800
  if biased = 0 then ⟨fraction, -1074, false⟩
  else ⟨implicitBit + fraction, (biased : Int) - 1075, fraction == 0 && 1 < biased⟩

/-- A fraction of naturals. -/
structure Ratio where
  num : Nat
  den : Nat

/-- The value `n * 2 ^ e`. -/
def Ratio.scale (n : Nat) (e : Int) : Ratio := ⟨n <<< e.toNat, 1 <<< (-e).toNat⟩

/-- The powers of ten. -/
def powerOfTen (k : Nat) : Nat := Nat.pow 10 k

/-- The value `n * 10 ^ e`. -/
def Ratio.decimal (n : Nat) (e : Int) : Ratio := ⟨n * powerOfTen e.toNat, powerOfTen (-e).toNat⟩

/-- Comparison by value. -/
def Ratio.lt (a b : Ratio) : Bool := a.num * b.den < b.num * a.den

/-- The integer part of `a / b`. -/
def Ratio.quotient (a b : Ratio) : Nat := a.num * b.den / (a.den * b.num)

/-- Whether the grid point `n * 10 ^ e` leads back to `m`: it lies no further away than
half way to a neighbour, and half way itself goes to the even mantissa. -/
def Magnitude.holds (m : Magnitude) (n : Nat) (e : Int) : Bool :=
  let low := Ratio.scale (4 * m.mantissa - if m.narrowBelow then 1 else 2) (m.exponent - 2)
  let high := Ratio.scale (4 * m.mantissa + 2) (m.exponent - 2)
  let x := Ratio.decimal n e
  if m.mantissa % 2 = 0 then !x.lt low && !high.lt x else low.lt x && x.lt high

/-- The nearer of the two points of the grid of step `10 ^ e` around `m`, if one of them
leads back to `m`; an exact tie goes to the even digit. -/
def Magnitude.onGrid? (m : Magnitude) (e : Int) : Option Nat :=
  let v := Ratio.scale m.mantissa m.exponent
  let n := v.quotient (Ratio.decimal 1 e)
  let middle := Ratio.decimal (2 * n + 1) e
  let double := Ratio.scale (2 * m.mantissa) m.exponent
  let nearest :=
    if double.lt middle then n
    else if middle.lt double then n + 1
    else if n % 2 = 0 then n else n + 1
  let other := if nearest = n then n + 1 else n
  if m.holds nearest e then some nearest
  else if m.holds other e then some other
  else none

/-- The decimal exponent of the leading digit of `m`. -/
def Magnitude.leading (m : Magnitude) : Int :=
  let v := Ratio.scale m.mantissa m.exponent
  let whole := v.num / v.den
  if whole = 0 then
    -- a value below one: its first digit is the first place at which it reaches one
    let place := (List.range 330).find? (fun k => v.den ≤ v.num * powerOfTen k)
    Int.negOfNat (place.getD 0)
  else ((Nat.toDigits 10 whole).length : Int) - 1

/-- The fewest digits that lead back to `m`, as an integer and its power of ten. -/
def Magnitude.shortest (m : Magnitude) : Nat × Int :=
  let top := m.leading
  let found := (List.range 17).findSome? fun (k : Nat) =>
    let e : Int := top - Int.ofNat k
    (m.onGrid? e).map fun n => (n, e)
  found.getD (m.mantissa, m.exponent)

/-- Drops the zeros at the end of a digit string into the power of ten. -/
def dropZeros (n : Nat) (e : Int) : Nat → Nat × Int
  | 0 => (n, e)
  | fuel + 1 => if n % 10 = 0 ∧ n ≠ 0 then dropZeros (n / 10) (e + 1) fuel else (n, e)

/-- The exponent of a text, always with its sign. -/
def signedExponent (e : Int) : String := if e < 0 then toString e else s!"+{e}"

/-- The text of the value `n * 10 ^ e`. -/
def decimalText (n : Nat) (e : Int) : String :=
  let ds := Nat.toDigits 10 n
  let point := (ds.length : Int) + e
  if 0 ≤ e ∧ point ≤ 16 then
    String.ofList (ds ++ List.replicate e.toNat '0') ++ ".0"
  else if 0 < point ∧ point ≤ 16 then
    String.ofList (ds.take point.toNat) ++ "." ++ String.ofList (ds.drop point.toNat)
  else if -5 < point ∧ point ≤ 0 then
    "0." ++ String.ofList (List.replicate (-point).toNat '0' ++ ds)
  else
    let exponent := signedExponent (point - 1)
    match ds with
    | [d] => String.ofList [d] ++ "e" ++ exponent
    | d :: rest => String.ofList (d :: '.' :: rest) ++ "e" ++ exponent
    | [] => "0.0"

/-- The text of a finite number. -/
def text (bits : UInt64) : String :=
  let m := Magnitude.ofBits bits
  let sign := if UInt64.size ≤ 2 * bits.toNat then "-" else ""
  if m.mantissa = 0 then sign ++ "0.0"
  else
    let (n, e) := m.shortest
    let (n, e) := dropZeros n e 400
    sign ++ decimalText n e

/-- Half way from the largest finite number to the power of two above it.  A number that
reaches it is too large. -/
def limit : Nat := (1 <<< 1024) - (1 <<< 970)

/-- Whether the value `n * 10 ^ e` is too large to be next to a finite number. -/
def isTooLarge (n : Nat) (e : Int) : Bool :=
  -- the limit has 309 digits
  let size := ((Nat.toDigits 10 n).length : Int) + e
  n ≠ 0 && (309 < size || (size = 309 && !(Ratio.decimal n e).lt ⟨limit, 1⟩))

end LiveSwitch.Binary64
