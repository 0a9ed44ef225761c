import LiveSwitch.Hash.Algorithm
import LiveSwitch.Proofs.Hash.BitWriter
import Mathlib.Algebra.BigOperators.Fin

/-!
# Packed fields as a concatenation

Every field stands in the packed number with the widths of the later fields as its exponent.  So
the packed bytes determine each field up to its width, and a single field can be read back.

## Main results

* `bitsValue_flatMap` — the number of the bits of some fields, as a sum over the fields.
* `packFields_inj_iff` — fields of the same widths are packed to the same bytes exactly when they
  agree modulo their widths.
* `toNat_leadingWord` — up to eight bytes are read as their number.
* `packFields_concatenates` — packed fields as bytes, as a number and as a hash input.
-/

namespace LiveSwitch.Hash

theorem bitsValue_flatMap (fields : List (UInt64 × Nat)) :
    bitsValue (fields.flatMap fun f => fieldBits f.1 f.2) =
      ∑ i : Fin fields.length, fields[i].1.toNat % 2 ^ fields[i].2 *
        2 ^ ((fields.drop (i + 1)).map Prod.snd).sum := by
  induction fields with
  | nil => rfl
  | cons f fields ih =>
    rw [List.flatMap_cons, bitsValue_append, ih, length_flatMap_fieldBits, bitsValue_fieldBits,
      Nat.add_comm, Nat.mul_comm]
    show _ = ∑ i : Fin (fields.length + 1), _
    rw [Fin.sum_univ_succ]
    rfl

/-! ### Fields of the same widths -/

theorem fieldBits_inj_iff {v v' : UInt64} {width : Nat} :
    fieldBits v' width = fieldBits v width ↔ v'.toNat % 2 ^ width = v.toNat % 2 ^ width := by
  rw [← bitsValue_fieldBits, ← bitsValue_fieldBits]
  exact ⟨congrArg bitsValue, bitsValue_inj (by rw [length_fieldBits, length_fieldBits])⟩

theorem flatMap_fieldBits_inj_iff {fields fields' : List (UInt64 × Nat)}
    (h : fields'.map Prod.snd = fields.map Prod.snd) :
    (fields'.flatMap fun f => fieldBits f.1 f.2) = (fields.flatMap fun f => fieldBits f.1 f.2) ↔
      List.Forall₂ (fun f' f => f'.1.toNat % 2 ^ f.2 = f.1.toNat % 2 ^ f.2) fields' fields := by
  induction fields generalizing fields' with
  | nil =>
    rw [List.map_nil, List.map_eq_nil_iff] at h
    subst h
    simp
  | cons f fields ih =>
    obtain ⟨f', fields', rfl, hf, hfields⟩ := List.map_eq_cons_iff.mp h
    rw [List.flatMap_cons, List.flatMap_cons, List.forall₂_cons, ← ih hfields,
      ← fieldBits_inj_iff, hf]
    refine ⟨fun happend => List.append_inj happend ?_, fun hparts => by rw [hparts.1, hparts.2]⟩
    rw [length_fieldBits, length_fieldBits]

theorem packFields_inj_iff {fields fields' : List (UInt64 × Nat)}
    (h : fields'.map Prod.snd = fields.map Prod.snd) :
    packFields fields' = packFields fields ↔
      List.Forall₂ (fun f' f => f'.1.toNat % 2 ^ f.2 = f.1.toNat % 2 ^ f.2) fields' fields := by
  have hlength : (fields'.flatMap fun f => fieldBits f.1 f.2).length =
      (fields.flatMap fun f => fieldBits f.1 f.2).length := by
    rw [length_flatMap_fieldBits, length_flatMap_fieldBits, h]
  rw [← flatMap_fieldBits_inj_iff h]
  constructor
  · intro hbytes
    refine bitsValue_inj hlength ?_
    rw [← bytesValue_packFields, ← bytesValue_packFields, hbytes]
  · intro hbits
    rw [packFields, packFields, hbits]

/-! ### Reading a field back -/

theorem toNat_shift_or (acc : UInt64) (b : UInt8) :
    (acc <<< 8 ||| b.toUInt64).toNat = (acc.toNat * 256 + b.toNat) % 2 ^ 64 := by
  have hb : b.toNat < 2 ^ 8 := b.toNat_lt
  have hcut : acc.toNat <<< 8 % 2 ^ 64 = (acc.toNat % 2 ^ 56) <<< 8 := by
    rw [Nat.shiftLeft_eq, Nat.shiftLeft_eq]
    omega
  have hor : (acc <<< 8 ||| b.toUInt64).toNat = acc.toNat <<< 8 % 2 ^ 64 ||| b.toNat := by
    rw [UInt64.toNat_or, UInt64.toNat_shiftLeft, UInt8.toNat_toUInt64]
    rfl
  rw [hor, hcut, ← Nat.shiftLeft_add_eq_or_of_lt hb, Nat.shiftLeft_eq]
  omega

theorem toNat_foldl_shift (bytes : List UInt8) (acc : UInt64) :
    (bytes.foldl (fun (acc : UInt64) (b : UInt8) => acc <<< 8 ||| b.toUInt64) acc).toNat =
      (acc.toNat * 256 ^ bytes.length + bytesValue bytes) % 2 ^ 64 := by
  induction bytes generalizing acc with
  | nil =>
    rw [List.foldl_nil, List.length_nil, pow_zero, Nat.mul_one, bytesValue_nil, Nat.add_zero,
      Nat.mod_eq_of_lt acc.toNat_lt]
  | cons b bytes ih =>
    rw [List.foldl_cons, ih, toNat_shift_or, bytesValue_cons, List.length_cons, pow_succ,
      Nat.add_mod, Nat.mod_mul_mod, ← Nat.add_mod]
    congr 1
    ring

/-- Up to eight bytes are read as their number. -/
theorem toNat_leadingWord {bytes : List UInt8} (h : bytes.length ≤ 8) :
    (HashAlgorithm.leadingWord bytes).toNat = bytesValue bytes := by
  rw [HashAlgorithm.leadingWord, List.take_of_length_le h, toNat_foldl_shift,
    UInt64.toNat_zero, Nat.zero_mul, Nat.zero_add, Nat.mod_eq_of_lt]
  calc bytesValue bytes < 256 ^ bytes.length := bytesValue_lt bytes
    _ ≤ 256 ^ 8 := Nat.pow_le_pow_right (by decide) h
    _ = 2 ^ 64 := rfl

theorem identity_packFields_singleton (v : UInt64) {width : Nat} (hwidth : width ≤ 64) :
    (HashAlgorithm.identity.compute (packFields [(v, width)])).toNat = v.toNat % 2 ^ width := by
  have hbits : ([(v, width)].flatMap fun f => fieldBits f.1 f.2) = fieldBits v width :=
    List.append_nil _
  have hlength : (packFields [(v, width)]).length ≤ 8 := by
    rw [length_packFields, hbits, length_fieldBits]
    omega
  rw [HashAlgorithm.compute, toNat_leadingWord hlength, bytesValue_packFields, hbits,
    bitsValue_fieldBits]

/-- Packed fields are the bytes that are filled in place, as many as the widths need; they are the
concatenation of the fields, they determine each field modulo its width, and a single field is read
back from them. -/
theorem packFields_concatenates {fields : List (UInt64 × Nat)}
    (hwidths : ∀ f ∈ fields, f.2 ≤ 64) :
    writeFields? fields = some (packFields fields) ∧
      (packFields fields).length = ((fields.map Prod.snd).sum + 7) / 8 ∧
      bytesValue (packFields fields) =
        ∑ i : Fin fields.length, fields[i].1.toNat % 2 ^ fields[i].2 *
          2 ^ ((fields.drop (i + 1)).map Prod.snd).sum ∧
      (∀ fields', fields'.map Prod.snd = fields.map Prod.snd →
        (packFields fields' = packFields fields ↔
          List.Forall₂ (fun f' f => f'.1.toNat % 2 ^ f.2 = f.1.toNat % 2 ^ f.2)
            fields' fields)) ∧
      ∀ v width, width ≤ 64 →
        (HashAlgorithm.identity.compute (packFields [(v, width)])).toNat =
          v.toNat % 2 ^ width := by
  refine ⟨writeFields?_eq hwidths, ?_, ?_, fun fields' h => packFields_inj_iff h,
    fun v width hwidth => identity_packFields_singleton v hwidth⟩
  · rw [length_packFields, length_flatMap_fieldBits]
  · rw [bytesValue_packFields, bitsValue_flatMap]

/-- A field of eight bits ahead of one of four bits: it goes across two bytes. -/
theorem packFields_unaligned :
    writeFields? [(0x5a, 8), (0x4, 4)] = some [0x05, 0xa4] ∧
      packFields [(0x15a, 8), (0x14, 4)] = packFields [(0x5a, 8), (0x4, 4)] ∧
      (HashAlgorithm.identity.compute (packFields [(0x15a, 8)])).toNat = 0x5a := by
  have hwidths : ∀ f ∈ [((0x5a : UInt64), 8), (0x4, 4)], f.2 ≤ 64 := by decide
  obtain ⟨hwrite, -, -, hinj, hread⟩ := packFields_concatenates hwidths
  have hpacked : packFields [(0x5a, 8), (0x4, 4)] = [0x05, 0xa4] := by decide
  rw [hpacked] at hwrite
  exact ⟨hwrite, (hinj [(0x15a, 8), (0x14, 4)] rfl).mpr (by simp), hread 0x15a 8 (by decide)⟩

end LiveSwitch.Hash
