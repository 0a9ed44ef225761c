import LiveSwitch.Proofs.Hash.Packing

/-!
# Writing fields in place

The bytes of some fields can be filled in place: zero bytes are laid out for all of the bits, and a
cursor goes over the bits and sets those that are one.  The cursor never leaves the bytes, and what
it leaves behind are the packed fields.

## Main definitions

* `BitWriter` — bytes and a cursor, with `start`, `push?` and `write?`.
* `writeFields?` — the bytes of a list of fields, filled in place; `none` where the cursor would
  leave them.
* `BitWriter.holding` — the writer that has written some bits and has some more to write.

## Main results

* `BitWriter.push?_holding` — one bit is written ahead of the free ones.
* `writeFields?_eq` — filling in place succeeds and gives the packed fields.
-/

namespace LiveSwitch.Hash

/-- Bytes that are being filled, and the position of the next bit, counted from the highest bit of
the first byte. -/
structure BitWriter where
  /-- The bytes, where bits that are not written are zero. -/
  bytes : List UInt8
  /-- The position of the next bit. -/
  position : Nat

namespace BitWriter

/-- Zero bytes for a number of bits, which end with the last byte. -/
def start (bits : Nat) : BitWriter :=
  let bytes := (bits + 7) / 8
  { bytes := List.replicate bytes 0, position := 8 * bytes - bits }

/-- Sets the bit at a position, if one of the bytes has it. -/
def setBit? (bytes : List UInt8) (position : Nat) : Option (List UInt8) :=
  bytes[position / 8]?.map fun b =>
    bytes.set (position / 8) (b ||| 0x80 >>> UInt8.ofNat (position % 8))

/-- Writes one bit; a zero stands there already. -/
def push? (w : BitWriter) (bit : Bool) : Option BitWriter :=
  (if bit then setBit? w.bytes w.position else some w.bytes).map fun bytes =>
    { bytes, position := w.position + 1 }

/-- Writes the lowest bits of a value, the highest of them first. -/
def write? (value : UInt64) : Nat → BitWriter → Option BitWriter
  | 0, w => some w
  | i + 1, w => do write? value i (← w.push? ((value >>> UInt64.ofNat i) &&& 1 == 1))

end BitWriter

/-- The bytes of a list of fields, each a value with its width in bits, filled in place. -/
def writeFields? (fields : List (UInt64 × Nat)) : Option (List UInt8) := do
  let start := BitWriter.start (fields.map Prod.snd).sum
  let w ← fields.foldlM (fun w f => BitWriter.write? f.1 f.2 w) start
  return w.bytes

namespace BitWriter

/-- Some bits are written, and as many more as `free` says are zero so far. -/
def holding (bits : List Bool) (free : Nat) : BitWriter :=
  { bytes := bytesOfBits (bits ++ List.replicate free false), position := bits.length }

/-! ### One bit -/

theorem byteOfBits_set {bits : List Bool} (h : bits.length = 8) {i : Nat} (hi : i < 8) :
    byteOfBits bits ||| 0x80 >>> UInt8.ofNat i = byteOfBits (bits.set i true) := by
  have hall : ∀ a b c d e f g h : Bool, ∀ i < 8,
      byteOfBits [a, b, c, d, e, f, g, h] ||| 0x80 >>> UInt8.ofNat i =
        byteOfBits ([a, b, c, d, e, f, g, h].set i true) := by
    decide +kernel
  match bits, h with
  | [a, b, c, d, e, f, g, h], _ => exact hall a b c d e f g h i hi

/-- In bytes that some bits fill, every one of the bits can be set. -/
theorem setBit?_bytesOfBits (n : Nat) {bits : List Bool} (h : bits.length = 8 * n) {i : Nat}
    (hi : i < bits.length) :
    setBit? (bytesOfBits bits) i = some (bytesOfBits (bits.set i true)) := by
  induction n generalizing bits i with
  | zero => omega
  | succ n ih =>
    have hfront : (bits.take 8).length = 8 := by rw [List.length_take]; omega
    have hrest : (bits.drop 8).length = 8 * n := by rw [List.length_drop]; omega
    rw [← List.take_append_drop 8 bits, bytesOfBits_append hfront, List.set_append, hfront]
    split
    case isTrue hlt =>
      have hbyte : i / 8 = 0 := by omega
      have hbit : i % 8 = i := by omega
      have hset : ((bits.take 8).set i true).length = 8 := by rw [List.length_set, hfront]
      rw [bytesOfBits_append hset, ← byteOfBits_set hfront hlt, setBit?, hbyte, hbit]
      rfl
    case isFalse hge =>
      have hbyte : i / 8 = (i - 8) / 8 + 1 := by omega
      have hbit : i % 8 = (i - 8) % 8 := by omega
      have hlater := ih hrest (i := i - 8) (by omega)
      rw [setBit?, Option.map_eq_some_iff] at hlater
      obtain ⟨b, hb, hbytes⟩ := hlater
      rw [bytesOfBits_append hfront, setBit?, hbyte, hbit, List.getElem?_cons_succ, hb, ← hbytes]
      rfl

theorem push?_holding {bits : List Bool} {free : Nat} (h : 8 ∣ bits.length + (free + 1))
    (bit : Bool) :
    (holding bits (free + 1)).push? bit = some (holding (bits ++ [bit]) free) := by
  have hbytes : (if bit then setBit? (holding bits (free + 1)).bytes bits.length
      else some (holding bits (free + 1)).bytes) = some (holding (bits ++ [bit]) free).bytes := by
    simp only [holding, List.append_assoc, List.singleton_append]
    cases bit with
    | false => rfl
    | true =>
      obtain ⟨n, hn⟩ := h
      have hset : (bits ++ List.replicate (free + 1) false).set bits.length true =
          bits ++ true :: List.replicate free false := by
        rw [List.set_append_right _ _ (le_refl _), Nat.sub_self]
        rfl
      rw [if_pos rfl, setBit?_bytesOfBits n (by simpa using hn) (by simp), hset]
  have hposition : (holding (bits ++ [bit]) free).position = bits.length + 1 := by
    rw [holding, List.length_append, List.length_singleton]
  rw [push?, show (holding bits (free + 1)).position = bits.length from rfl, hbytes,
    Option.map_some, ← hposition]

/-! ### One field -/

theorem and_one_eq_testBit (value : UInt64) {i : Nat} (hi : i < 64) :
    ((value >>> UInt64.ofNat i) &&& 1 == 1) = value.toNat.testBit i := by
  have hnat : ((value >>> UInt64.ofNat i) &&& 1).toNat = value.toNat >>> i &&& 1 := by
    rw [UInt64.toNat_and, UInt64.toNat_shiftRight, UInt64.toNat_ofNat',
      Nat.mod_eq_of_lt (a := i) (by omega), Nat.mod_eq_of_lt hi]
    rfl
  have hone : (value.toNat >>> i &&& 1) = (value.toNat.testBit i).toNat := by
    rw [Nat.and_one_is_mod, Nat.toNat_testBit, Nat.shiftRight_eq_div_pow]
  rw [Bool.eq_iff_iff, beq_iff_eq, ← UInt64.toNat_inj, hnat, hone]
  cases value.toNat.testBit i <;> decide

theorem write?_holding {value : UInt64} {width : Nat} (hwidth : width ≤ 64) {bits : List Bool}
    {free : Nat} (h : 8 ∣ bits.length + (width + free)) :
    write? value width (holding bits (width + free)) =
      some (holding (bits ++ fieldBits value width) free) := by
  induction width generalizing bits with
  | zero => rw [write?, fieldBits, Nat.zero_add]; simp
  | succ i ih =>
    rw [Nat.succ_add] at h ⊢
    have hlength : 8 ∣ (bits ++ [value.toNat.testBit i]).length + (i + free) := by
      rw [List.length_append, List.length_singleton]
      omega
    have hlater := ih (by omega) hlength
    rw [List.append_assoc] at hlater
    rw [write?, and_one_eq_testBit value (by omega), push?_holding h, fieldBits_succ]
    exact hlater

/-! ### All fields -/

theorem foldlM_write?_holding {fields : List (UInt64 × Nat)} (hwidths : ∀ f ∈ fields, f.2 ≤ 64)
    {bits : List Bool} (h : 8 ∣ bits.length + (fields.map Prod.snd).sum) :
    fields.foldlM (fun w f => write? f.1 f.2 w) (holding bits (fields.map Prod.snd).sum) =
      some (holding (bits ++ fields.flatMap fun f => fieldBits f.1 f.2) 0) := by
  induction fields generalizing bits with
  | nil => simp
  | cons f fields ih =>
    obtain ⟨hf, hfields⟩ := List.forall_mem_cons.mp hwidths
    rw [List.map_cons, List.sum_cons] at h ⊢
    rw [List.foldlM_cons, write?_holding hf h, List.flatMap_cons, ← List.append_assoc]
    refine ih hfields ?_
    rw [List.length_append, length_fieldBits, Nat.add_assoc]
    exact h

theorem bytesOfBits_zeros (n : Nat) :
    bytesOfBits (List.replicate (8 * n) false) = List.replicate n 0 := by
  induction n with
  | zero => rfl
  | succ n ih =>
    rw [Nat.mul_succ, Nat.add_comm, ← List.replicate_append_replicate,
      bytesOfBits_append (List.length_replicate ..), ih]
    rfl

/-- At the start, the zeros that pad the bits count as written. -/
theorem start_eq (total : Nat) :
    start total = holding (List.replicate ((8 - total % 8) % 8) false) total := by
  have hbits : (8 - total % 8) % 8 + total = 8 * ((total + 7) / 8) := by omega
  have hposition : 8 * ((total + 7) / 8) - total = (8 - total % 8) % 8 := by omega
  rw [start, holding, List.replicate_append_replicate, hbits, bytesOfBits_zeros,
    List.length_replicate, hposition]

end BitWriter

/-- Filling in place succeeds and gives the packed fields. -/
theorem writeFields?_eq {fields : List (UInt64 × Nat)} (hwidths : ∀ f ∈ fields, f.2 ≤ 64) :
    writeFields? fields = some (packFields fields) := by
  have hfull : 8 ∣ (List.replicate ((8 - (fields.map Prod.snd).sum % 8) % 8) false).length +
      (fields.map Prod.snd).sum := by
    rw [List.length_replicate]
    omega
  have hwrite := BitWriter.foldlM_write?_holding hwidths hfull
  rw [← BitWriter.start_eq] at hwrite
  rw [writeFields?, packFields, padBits, length_flatMap_fieldBits]
  simp only [hwrite]
  simp [BitWriter.holding]

end LiveSwitch.Hash
