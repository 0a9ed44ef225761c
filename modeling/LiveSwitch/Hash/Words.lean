/-!
# Checks over 16-bit words

Two checks read a message as big-endian words of 16 bits; a last odd byte is the high
byte of a word whose low byte is zero.

## Main definitions

* `words16` — the words of a message.
* `csum16` — the complement of their end-around-carry sum.
* `xor16` — their exclusive or.

## Main results

* `foldCarry_lt` — a folded sum fits in 16 bits.
-/

namespace LiveSwitch.Hash

/-- The word with the given high and low byte. -/
def word16 (high low : UInt8) : UInt16 := high.toUInt16 <<< 8 ||| low.toUInt16

/-- The big-endian words of a message, the last one padded with a zero byte. -/
def words16 : List UInt8 → List UInt16
  | high :: low :: rest => word16 high low :: words16 rest
  | [high] => [word16 high 0]
  | [] => []

/-- Adds the bits above the lowest 16 back in until there are none. -/
def foldCarry (sum : Nat) : Nat :=
  if sum / 65536 = 0 then sum else foldCarry (sum % 65536 + sum / 65536)
termination_by sum
decreasing_by omega

/-- A folded sum fits in 16 bits. -/
theorem foldCarry_lt (sum : Nat) : foldCarry sum < 65536 := by
  induction sum using Nat.strongRecOn with
  | ind sum ih =>
    rw [foldCarry]
    split
    · omega
    · exact ih _ (by omega)

/-- The sum of words in a register of 32 bits. -/
def sum32 (ws : List UInt16) : UInt32 := ws.foldl (fun sum w => sum + w.toUInt32) 0

/-- The internet checksum: the complement of the end-around-carry sum of the words. -/
def csum16 (message : List UInt8) : UInt16 :=
  ~~~ (foldCarry (sum32 (words16 message)).toNat).toUInt16

/-- The exclusive or of the words. -/
def xor16 (message : List UInt8) : UInt16 := (words16 message).foldl (· ^^^ ·) 0

end LiveSwitch.Hash
