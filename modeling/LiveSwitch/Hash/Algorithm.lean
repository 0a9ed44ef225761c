import LiveSwitch.Hash.Crc
import LiveSwitch.Hash.Words

/-!
# Hash algorithms

The algorithms that calculations and rehashes can name.

## Main definitions

* `HashAlgorithm` — the six algorithms, with `name`, `ofName?` and `compute`.

## Main results

* `HashAlgorithm.ofName?_name` — every algorithm is found under its own name.
-/

namespace LiveSwitch

/-- A hash algorithm. -/
inductive HashAlgorithm where
  | crc16
  | crc32
  | crcCcitt
  | csum16
  /-- The leading eight bytes as a big-endian integer. -/
  | identity
  | xor16
  deriving DecidableEq, Repr, Inhabited

namespace HashAlgorithm

/-- All algorithms. -/
def all : List HashAlgorithm := [crc16, crc32, crcCcitt, csum16, identity, xor16]

/-- The name of an algorithm in documents and plans. -/
def name : HashAlgorithm → String
  | crc16 => "crc16"
  | crc32 => "crc32"
  | crcCcitt => "crcCCITT"
  | csum16 => "csum16"
  | identity => "identity"
  | xor16 => "xor16"

/-- The algorithm of a name. -/
def ofName? (s : String) : Option HashAlgorithm := all.find? fun a => a.name == s

/-- The big-endian integer of the leading eight bytes. -/
def leadingWord (message : List UInt8) : UInt64 :=
  (message.take 8).foldl (fun acc b => acc <<< 8 ||| b.toUInt64) 0

/-- The hash of a message. -/
def compute (algorithm : HashAlgorithm) (message : List UInt8) : UInt64 :=
  match algorithm with
  | crc16 => UInt64.ofNat (Hash.crc16 message).toNat
  | crc32 => UInt64.ofNat (Hash.crc32 message).toNat
  | crcCcitt => UInt64.ofNat (Hash.crcCcitt message).toNat
  | csum16 => (Hash.csum16 message).toUInt64
  | identity => leadingWord message
  | xor16 => (Hash.xor16 message).toUInt64

/-- Every algorithm is found under its own name. -/
theorem ofName?_name (a : HashAlgorithm) : ofName? a.name = some a := by
  cases a <;> rfl

end HashAlgorithm

end LiveSwitch
