/-!
# Limits of register arrays

A document and a plan may only declare register arrays within these limits.
-/

namespace LiveSwitch.Register

/-- The largest number of cells of an array. -/
def maxSize : Nat := 0x1000000

/-- The largest number of bits of a cell. -/
def maxBitwidth : Nat := 64

/-- Whether an array may have `size` cells. -/
def validSize (size : Nat) : Bool := 0 < size && size ≤ maxSize

/-- Whether a cell may have `bitwidth` bits. -/
def validBitwidth (bitwidth : Nat) : Bool := 0 < bitwidth && bitwidth ≤ maxBitwidth

end LiveSwitch.Register
