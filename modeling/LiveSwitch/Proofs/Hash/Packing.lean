import LiveSwitch.Hash.Packing
import Mathlib.Data.Nat.Digits.Defs

/-!
# Packed fields as numbers

Packed fields are one number with its highest byte first: bits taken by eights are the digits of
the same number, and the zeros ahead of them change nothing.

## Main definitions

* `bitsValue`, `bytesValue` — the number of some bits and of some bytes, the highest in front.
* `bigEndian` — a number on some bytes, the highest in front.

## Main results

* `bytesValue_packFields` — packed fields are the number of their bits.
* `bitsValue_inj`, `bytesValue_inj` — as many bits or bytes of the same number are the same.
* `packFields_singleton` — one field is packed as its big-endian bytes.
-/

namespace LiveSwitch.Hash

/-- The number of some bits, the highest in front. -/
def bitsValue (bits : List Bool) : Nat := Nat.ofDigits 2 (bits.map Bool.toNat).reverse

/-- The number of some bytes, the highest in front. -/
def bytesValue (bytes : List UInt8) : Nat := Nat.ofDigits 256 (bytes.map UInt8.toNat).reverse

/-- A number on `n` bytes, the highest in front. -/
def bigEndian (n v : Nat) : List UInt8 :=
  (List.range n).reverse.map fun k => UInt8.ofNat (v / 256 ^ k)

/-! ### Digits -/

@[simp] theorem bitsValue_nil : bitsValue [] = 0 := rfl

@[simp] theorem bytesValue_nil : bytesValue [] = 0 := rfl

theorem bitsValue_cons (b : Bool) (bits : List Bool) :
    bitsValue (b :: bits) = bitsValue bits + 2 ^ bits.length * b.toNat := by
  rw [bitsValue, List.map_cons, Nat.ofDigits_reverse_cons, List.length_map, bitsValue]

theorem bytesValue_cons (b : UInt8) (bytes : List UInt8) :
    bytesValue (b :: bytes) = bytesValue bytes + 256 ^ bytes.length * b.toNat := by
  rw [bytesValue, List.map_cons, Nat.ofDigits_reverse_cons, List.length_map, bytesValue]

theorem bitsValue_append (bits bits' : List Bool) :
    bitsValue (bits ++ bits') = bitsValue bits' + 2 ^ bits'.length * bitsValue bits := by
  rw [bitsValue, List.map_append, List.reverse_append, Nat.ofDigits_append, List.length_reverse,
    List.length_map, bitsValue, bitsValue]

theorem bitsValue_replicate_false (n : Nat) : bitsValue (List.replicate n false) = 0 := by
  rw [bitsValue, List.map_replicate, List.reverse_replicate]
  exact Nat.ofDigits_replicate_zero

section Digits

variable {α : Type} {base : Nat} {digit : α → Nat}

theorem digits_lt (hdigit : ∀ a, digit a < base) (l : List α) :
    ∀ d ∈ (l.map digit).reverse, d < base := by
  intro d hd
  obtain ⟨a, -, rfl⟩ := List.mem_map.mp (List.mem_reverse.mp hd)
  exact hdigit a

theorem ofDigits_map_inj (hbase : 1 < base) (hdigit : ∀ a, digit a < base)
    (hinj : ∀ a b, digit a = digit b → a = b) {l l' : List α} (hlength : l.length = l'.length)
    (h : Nat.ofDigits base (l.map digit).reverse = Nat.ofDigits base (l'.map digit).reverse) :
    l = l' := by
  have hdigits := Nat.ofDigits_inj_of_len_eq hbase (by simpa using hlength)
    (digits_lt hdigit l) (digits_lt hdigit l') h
  exact (List.map_inj_right hinj).mp (List.reverse_inj.mp hdigits)

end Digits

/-- As many bits of the same number are the same bits. -/
theorem bitsValue_inj {bits bits' : List Bool} (hlength : bits.length = bits'.length)
    (h : bitsValue bits = bitsValue bits') : bits = bits' :=
  ofDigits_map_inj (by decide) Bool.toNat_lt (by decide) hlength h

/-- As many bytes of the same number are the same bytes. -/
theorem bytesValue_inj {bytes bytes' : List UInt8} (hlength : bytes.length = bytes'.length)
    (h : bytesValue bytes = bytesValue bytes') : bytes = bytes' :=
  ofDigits_map_inj (by decide) UInt8.toNat_lt (fun _ _ => UInt8.toNat_inj.mp) hlength h

theorem bytesValue_lt (bytes : List UInt8) : bytesValue bytes < 256 ^ bytes.length := by
  have hlt := Nat.ofDigits_lt_base_pow_length (by decide : 1 < 256)
    (digits_lt UInt8.toNat_lt bytes)
  rwa [List.length_reverse, List.length_map] at hlt

/-! ### Bits by eights -/

theorem bytesOfBits_append {front : List Bool} (h : front.length = 8) (rest : List Bool) :
    bytesOfBits (front ++ rest) = byteOfBits front :: bytesOfBits rest := by
  match front, h with
  | [_, _, _, _, _, _, _, _], _ => rfl

theorem toNat_byteOfBits : ∀ a b c d e f g h : Bool,
    (byteOfBits [a, b, c, d, e, f, g, h]).toNat = bitsValue [a, b, c, d, e, f, g, h] := by
  decide

/-- Bits that fill whole bytes are the number of these bytes. -/
theorem bytesValue_bytesOfBits : ∀ (n : Nat) (bits : List Bool), bits.length = 8 * n →
    bytesValue (bytesOfBits bits) = bitsValue bits
  | 0, bits, h => by
    rw [List.length_eq_zero_iff.mp h]
    rfl
  | n + 1, a :: b :: c :: d :: e :: f :: g :: k :: rest, h => by
    have hrest : rest.length = 8 * n := by
      simp only [List.length_cons] at h
      omega
    rw [bytesOfBits, bytesValue_cons, bytesValue_bytesOfBits n rest hrest, toNat_byteOfBits,
      length_bytesOfBits n rest hrest]
    show _ = bitsValue ([a, b, c, d, e, f, g, k] ++ rest)
    rw [bitsValue_append, hrest, pow_mul]
    rfl
  | n + 1, [], h | n + 1, [_], h | n + 1, [_, _], h | n + 1, [_, _, _], h
  | n + 1, [_, _, _, _], h | n + 1, [_, _, _, _, _], h | n + 1, [_, _, _, _, _, _], h
  | n + 1, [_, _, _, _, _, _, _], h => by
    simp only [List.length_cons, List.length_nil] at h
    omega

/-! ### Bits of fields -/

theorem fieldBits_succ (value : UInt64) (width : Nat) :
    fieldBits value (width + 1) = value.toNat.testBit width :: fieldBits value width := by
  rw [fieldBits, List.range_succ, List.reverse_append]
  rfl

/-- The bits of a field are its value, cut to its width. -/
theorem bitsValue_fieldBits (value : UInt64) (width : Nat) :
    bitsValue (fieldBits value width) = value.toNat % 2 ^ width := by
  induction width with
  | zero => rw [Nat.pow_zero, Nat.mod_one]; rfl
  | succ width ih =>
    rw [fieldBits_succ, bitsValue_cons, ih, length_fieldBits, Nat.mod_pow_succ, Nat.toNat_testBit]

theorem length_flatMap_fieldBits (fields : List (UInt64 × Nat)) :
    (fields.flatMap fun f => fieldBits f.1 f.2).length = (fields.map Prod.snd).sum := by
  rw [List.length_flatMap]
  simp only [length_fieldBits]

/-- Packed fields are the number of their bits. -/
theorem bytesValue_packFields (fields : List (UInt64 × Nat)) :
    bytesValue (packFields fields) = bitsValue (fields.flatMap fun f => fieldBits f.1 f.2) := by
  rw [packFields, bytesValue_bytesOfBits _ _ (length_padBits _), padBits, bitsValue_append,
    bitsValue_replicate_false, Nat.mul_zero, Nat.add_zero]

/-! ### One field -/

@[simp] theorem length_bigEndian (n v : Nat) : (bigEndian n v).length = n := by
  rw [bigEndian, List.length_map, List.length_reverse, List.length_range]

theorem bytesValue_bigEndian (n v : Nat) : bytesValue (bigEndian n v) = v % 256 ^ n := by
  induction n with
  | zero => rw [Nat.pow_zero, Nat.mod_one]; rfl
  | succ n ih =>
    have hcons : bigEndian (n + 1) v = UInt8.ofNat (v / 256 ^ n) :: bigEndian n v := by
      rw [bigEndian, List.range_succ, List.reverse_append]
      rfl
    rw [hcons, bytesValue_cons, ih, length_bigEndian, Nat.mod_pow_succ (b := 256),
      UInt8.toNat_ofNat']

/-- A field that fits its width is packed as its big-endian bytes. -/
theorem packFields_singleton {v : UInt64} {width : Nat} (hv : v.toNat < 2 ^ width) :
    packFields [(v, width)] = bigEndian ((width + 7) / 8) v.toNat := by
  have hbits : ([(v, width)].flatMap fun f => fieldBits f.1 f.2) = fieldBits v width :=
    List.append_nil _
  have hle : 2 ^ width ≤ 256 ^ ((width + 7) / 8) := by
    have h256 : (256 : Nat) = 2 ^ 8 := rfl
    rw [h256, ← pow_mul]
    exact Nat.pow_le_pow_right Nat.two_pos (by omega)
  refine bytesValue_inj ?_ ?_
  · rw [length_packFields, hbits, length_fieldBits, length_bigEndian]
  · rw [bytesValue_packFields, hbits, bitsValue_fieldBits, bytesValue_bigEndian,
      Nat.mod_eq_of_lt hv, Nat.mod_eq_of_lt (Nat.lt_of_lt_of_le hv hle)]

end LiveSwitch.Hash
