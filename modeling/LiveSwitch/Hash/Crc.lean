/-!
# Cyclic redundancy checks

A register of `w` bits takes in a message byte by byte and is shifted eight times for
each.  A check is either *forward*, where bits leave at the top of the register, or
*reflected*, where every byte comes in with its bits reversed and bits leave at the
bottom.

## Main definitions

* `Crc.forward`, `Crc.reflected` — the register after a message.
* `crc16`, `crc32`, `crcCcitt` — the three checks that calculations can use.
-/

namespace LiveSwitch.Hash

namespace Crc

variable {w : Nat}

/-- One shift towards the top; a bit that leaves brings in the polynomial. -/
def forwardStep (poly r : BitVec w) : BitVec w :=
  if r.msb then (r <<< 1) ^^^ poly else r <<< 1

/-- One shift towards the bottom; a bit that leaves brings in the polynomial. -/
def reflectedStep (poly r : BitVec w) : BitVec w :=
  if r.getLsbD 0 then (r >>> 1) ^^^ poly else r >>> 1

/-- `n` shifts in turn. -/
def steps (step : BitVec w → BitVec w) : Nat → BitVec w → BitVec w
  | 0, r => r
  | n + 1, r => steps step n (step r)

/-- Takes one byte in at the top of the register. -/
def forwardByte (poly r : BitVec w) (b : UInt8) : BitVec w :=
  steps (forwardStep poly) 8 (r ^^^ (b.toBitVec.setWidth w <<< (w - 8)))

/-- Takes one byte in at the bottom of the register. -/
def reflectedByte (poly r : BitVec w) (b : UInt8) : BitVec w :=
  steps (reflectedStep poly) 8 (r ^^^ b.toBitVec.setWidth w)

/-- The register of a forward check after a message. -/
def forward (poly start : BitVec w) (message : List UInt8) : BitVec w :=
  message.foldl (forwardByte poly) start

/-- The register of a reflected check after a message. -/
def reflected (poly start : BitVec w) (message : List UInt8) : BitVec w :=
  message.foldl (reflectedByte poly) start

end Crc

/-- The reflected check with polynomial `x^16 + x^15 + x^2 + 1`, from zero. -/
def crc16 (message : List UInt8) : BitVec 16 := Crc.reflected 0xA001#16 0#16 message

/-- The forward check with polynomial `x^16 + x^12 + x^5 + 1`, from all ones. -/
def crcCcitt (message : List UInt8) : BitVec 16 := Crc.forward 0x1021#16 0xFFFF#16 message

/-- The reflected check of 32 bits of Ethernet frames: from all ones, complemented at the
end. -/
def crc32 (message : List UInt8) : BitVec 32 :=
  ~~~ Crc.reflected 0xEDB88320#32 0xFFFFFFFF#32 message

end LiveSwitch.Hash
