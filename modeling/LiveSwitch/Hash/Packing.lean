/-!
# Packing fields into bytes

A calculation hashes the concatenation of its fields, each written with its own number of
bits and the highest bit first.  When the bits do not fill whole bytes, zero bits stand
ahead of them.

## Main definitions

* `fieldBits` — the bits of one field.
* `bytesOfBits` — bits by eights.
* `packFields` — the bytes of a list of fields.

## Main results

* `length_bytesOfBits` — eight bits make one byte.
* `length_packFields` — the packed fields take as many bytes as their bits need.
-/

namespace LiveSwitch.Hash

/-- The lowest `width` bits of a value, the highest of them first. -/
def fieldBits (value : UInt64) (width : Nat) : List Bool :=
  (List.range width).reverse.map value.toNat.testBit

/-- The byte with the given bits, the highest first. -/
def byteOfBits (bits : List Bool) : UInt8 :=
  bits.foldl (fun b bit => b * 2 + (if bit then 1 else 0)) 0

/-- Bits by eights; an incomplete group at the end is left out. -/
def bytesOfBits : List Bool → List UInt8
  | a :: b :: c :: d :: e :: f :: g :: h :: rest =>
    byteOfBits [a, b, c, d, e, f, g, h] :: bytesOfBits rest
  | _ => []

/-- The bits with as many zeros ahead as fill whole bytes. -/
def padBits (bits : List Bool) : List Bool :=
  List.replicate ((8 - bits.length % 8) % 8) false ++ bits

/-- The bytes of a list of fields, each a value with its width in bits. -/
def packFields (fields : List (UInt64 × Nat)) : List UInt8 :=
  bytesOfBits (padBits (fields.flatMap fun f => fieldBits f.1 f.2))

/-- Eight bits make one byte. -/
theorem length_bytesOfBits : ∀ (n : Nat) (bits : List Bool), bits.length = 8 * n →
    (bytesOfBits bits).length = n
  | 0, bits, h => by
    have : bits = [] := List.length_eq_zero_iff.1 (by omega)
    subst this
    rfl
  | n + 1, a :: b :: c :: d :: e :: f :: g :: k :: rest, h => by
    have : rest.length = 8 * n := by
      simp only [List.length_cons] at h
      omega
    simp [bytesOfBits, length_bytesOfBits n rest this]
  | n + 1, [], h | n + 1, [_], h | n + 1, [_, _], h | n + 1, [_, _, _], h
  | n + 1, [_, _, _, _], h | n + 1, [_, _, _, _, _], h | n + 1, [_, _, _, _, _, _], h
  | n + 1, [_, _, _, _, _, _, _], h => by
    simp only [List.length_cons, List.length_nil] at h
    omega

/-- Padded bits fill whole bytes. -/
theorem length_padBits (bits : List Bool) :
    (padBits bits).length = 8 * ((bits.length + 7) / 8) := by
  simp only [padBits, List.length_append, List.length_replicate]
  omega

/-- A field has as many bits as its width says. -/
@[simp] theorem length_fieldBits (value : UInt64) (width : Nat) :
    (fieldBits value width).length = width := by
  rw [fieldBits, List.length_map, List.length_reverse, List.length_range]

/-- The packed fields take as many bytes as their bits need. -/
theorem length_packFields (fields : List (UInt64 × Nat)) :
    (packFields fields).length =
      ((fields.flatMap fun f => fieldBits f.1 f.2).length + 7) / 8 :=
  length_bytesOfBits _ _ (length_padBits _)

end LiveSwitch.Hash
