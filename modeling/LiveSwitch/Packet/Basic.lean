import LiveSwitch.Assoc

/-!
# Packets

A pipeline sees a packet as named field values, the set of headers that are present, the
port it came in on and a mark that it is to be dropped.  A field that was never set reads
zero.

## Main definitions

* `Packet` — the packet, with `field`, `setField`, `isValid`, `markValid` and
  `markToDrop`.
* `widthMask` — the largest value of a number of bits.

## Main results

* `Packet.field_setField` — what a field reads after one was set.
* `toNat_widthMask` — the mask of `w` bits is `2 ^ w - 1`.
-/

namespace LiveSwitch

/-- All ones in the lowest `width` bits; 64 bits are the most there are. -/
def widthMask (width : Nat) : UInt64 := UInt64.ofNat (1 <<< min width 64 - 1)

/-- The mask of a width, as a number. -/
theorem toNat_widthMask (width : Nat) :
    (widthMask width).toNat = 1 <<< min width 64 - 1 := by
  have hle := Nat.pow_le_pow_right Nat.two_pos (Nat.min_le_right width 64)
  have hpos := Nat.two_pow_pos (min width 64)
  rw [widthMask, UInt64.toNat_ofNat', Nat.one_shiftLeft]
  exact Nat.mod_eq_of_lt (by omega)

/-- A packet on its way through the pipelines. -/
structure Packet where
  /-- The fields that were set, each once. -/
  fields : List (String × UInt64) := []
  validHeaders : List String := []
  port : UInt16 := 0
  dropped : Bool := false
  deriving DecidableEq, Repr, Inhabited

namespace Packet

/-- The value of a field; a field that was never set reads zero. -/
def field (p : Packet) (name : String) : UInt64 := (p.fields.lookup name).getD 0

/-- Sets a field. -/
def setField (p : Packet) (name : String) (value : UInt64) : Packet :=
  { p with fields := Assoc.set name value p.fields }

/-- Whether a header is present. -/
def isValid (p : Packet) (header : String) : Bool := p.validHeaders.contains header

/-- Marks a header as present. -/
def markValid (p : Packet) (header : String) : Packet :=
  if p.isValid header then p else { p with validHeaders := header :: p.validHeaders }

/-- Marks the packet to be dropped. -/
def markToDrop (p : Packet) : Packet := { p with dropped := true }

/-- The header that a field belongs to: the part of its name before the first point. -/
def headerOf? (name : String) : Option String :=
  let cs := name.toList
  if cs.contains '.' then some (String.ofList (cs.takeWhile (· != '.'))) else none

/-- Sets a field as a parser does, which makes its header present. -/
def withField (p : Packet) (name : String) (value : UInt64) : Packet :=
  let p := match headerOf? name with
    | some header => p.markValid header
    | none => p
  p.setField name value

/-- A field reads the value it was set to; the others read as before. -/
theorem field_setField (p : Packet) (name : String) (value : UInt64) (other : String) :
    (p.setField name value).field other = if other = name then value else p.field other := by
  rw [field, setField, Assoc.lookup_set]
  split <;> rfl

end Packet

end LiveSwitch
