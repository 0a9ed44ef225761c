import LiveSwitch.Hash.Algorithm
import LiveSwitch.Proofs.Hash.Packing
import Mathlib.Data.List.Induction

/-!
# The internet checksum

The internet checksum of a message is the complement of the sum of its words, where every carry is
added back in at the low end.  Such a sum only matters modulo 65535, but for zero.  `csum16` adds
up the words in a register of 32 bits before it folds the carries: what leaves that register is
lost, and a message of more than 131074 bytes can get another checksum.

## Main definitions

* `wordSum` — the sum of the words of a message, of any size.
* `endAroundCarry` — the reduction of a sum to 16 bits.

## Main results

* `toNat_csum16` — `csum16` in terms of the sum that the register holds.
* `endAroundCarry_mod_iff` — when the lost part of a sum does not matter.
* `csum16_append` — a message with its checksum behind it has the checksum zero.
* `csum16_eq_complement` — where `csum16` is the internet checksum.
-/

namespace LiveSwitch.Hash

/-- The sum of the big-endian words of a message, of any size. -/
def wordSum : List UInt8 → Nat
  | high :: low :: rest => 256 * high.toNat + low.toNat + wordSum rest
  | [high] => 256 * high.toNat
  | [] => 0

/-- The reduction of a sum to 16 bits: a carry counts as one. -/
def endAroundCarry (sum : Nat) : Nat := if sum = 0 then 0 else 1 + (sum - 1) % 65535

/-! ### The reduction -/

theorem endAroundCarry_of_pos {sum : Nat} (h : 0 < sum) :
    endAroundCarry sum = 1 + (sum - 1) % 65535 := by
  rw [endAroundCarry, if_neg h.ne']

theorem endAroundCarry_le (sum : Nat) : endAroundCarry sum ≤ 65535 := by
  unfold endAroundCarry
  split <;> omega

theorem foldCarry_eq (sum : Nat) : foldCarry sum = endAroundCarry sum := by
  induction sum using Nat.strongRecOn with
  | ind sum ih =>
    rw [foldCarry]
    split
    case isTrue hsmall =>
      unfold endAroundCarry
      split <;> omega
    case isFalse hlarge =>
      rw [ih _ (by omega), endAroundCarry_of_pos (by omega), endAroundCarry_of_pos (by omega)]
      omega

/-- The part of a sum above 32 bits counts once for each `2 ^ 32`, which is one more than a
multiple of 65535. -/
theorem endAroundCarry_mod_iff (sum : Nat) :
    endAroundCarry (sum % 2 ^ 32) = endAroundCarry sum ↔
      65535 ∣ sum / 2 ^ 32 ∧ (sum % 2 ^ 32 = 0 → sum = 0) := by
  have hsplit : 2 ^ 32 * (sum / 2 ^ 32) + sum % 2 ^ 32 = sum := Nat.div_add_mod sum (2 ^ 32)
  generalize sum / 2 ^ 32 = lost at hsplit ⊢
  generalize sum % 2 ^ 32 = kept at hsplit ⊢
  rcases Nat.eq_zero_or_pos kept with rfl | hkept
  · rcases Nat.eq_zero_or_pos sum with rfl | hsum
    · have hlost : lost = 0 := by omega
      simp [hlost]
    · -- zero is the one sum that the reduction keeps apart from the multiples of 65535
      rw [endAroundCarry_of_pos hsum]
      simp only [endAroundCarry, if_true, hsum.ne', imp_false, not_true, and_false, iff_false]
      omega
  · have hsum : sum - 1 = 65535 * (lost * 65537) + (lost + (kept - 1)) := by omega
    rw [endAroundCarry_of_pos hkept, endAroundCarry_of_pos (by omega), hsum, Nat.mul_add_mod]
    omega

/-- A sum and the complement of its reduction fit into the register and reduce to all ones. -/
theorem endAroundCarry_add_complement {sum : Nat} (h : sum < 2 ^ 32) :
    sum + (65535 - endAroundCarry sum) < 2 ^ 32 ∧
      endAroundCarry (sum + (65535 - endAroundCarry sum)) = 65535 := by
  rcases Nat.eq_zero_or_pos sum with rfl | hsum
  · decide
  · rw [endAroundCarry_of_pos hsum, endAroundCarry_of_pos (by omega)]
    omega

/-! ### The sum of a message -/

theorem toNat_word16 (high low : UInt8) :
    (word16 high low).toNat = 256 * high.toNat + low.toNat := by
  have hlow : low.toNat < 2 ^ 8 := low.toNat_lt
  have hhigh : high.toNat < 2 ^ 8 := high.toNat_lt
  have hshift : high.toNat <<< 8 % 2 ^ 16 = high.toNat <<< 8 := by
    rw [Nat.shiftLeft_eq]
    omega
  have hword : (word16 high low).toNat = high.toNat <<< 8 ||| low.toNat := by
    rw [word16, UInt16.toNat_or, UInt16.toNat_shiftLeft, UInt8.toNat_toUInt16,
      UInt8.toNat_toUInt16]
    exact congrArg (· ||| low.toNat) hshift
  rw [hword, ← Nat.shiftLeft_add_eq_or_of_lt hlow, Nat.shiftLeft_eq, Nat.mul_comm]

theorem wordSum_eq : ∀ message, wordSum message = ((words16 message).map UInt16.toNat).sum
  | high :: low :: rest => by
    rw [wordSum, words16, List.map_cons, List.sum_cons, toNat_word16, wordSum_eq rest]
  | [high] => by simp [wordSum, words16, toNat_word16]
  | [] => rfl

theorem wordSum_append : ∀ {message : List UInt8}, message.length % 2 = 0 → ∀ message',
    wordSum (message ++ message') = wordSum message + wordSum message'
  | high :: low :: rest, h, message' => by
    have hrest : rest.length % 2 = 0 := by
      simp only [List.length_cons] at h
      omega
    rw [List.cons_append, List.cons_append, wordSum, wordSum, wordSum_append hrest,
      ← Nat.add_assoc]
  | [_], h, _ => by cases h
  | [], _, message' => (Nat.zero_add _).symm

theorem wordSum_bigEndian {v : Nat} (h : v < 65536) : wordSum (bigEndian 2 v) = v := by
  have hbytes : bigEndian 2 v = [UInt8.ofNat (v / 256), UInt8.ofNat v] := by
    simp [bigEndian, List.range_succ]
  rw [hbytes]
  simp only [wordSum, UInt8.toNat_ofNat']
  omega

theorem wordSum_le : ∀ message, wordSum message ≤ 65535 * ((message.length + 1) / 2)
  | high :: low :: rest => by
    have hrest := wordSum_le rest
    have hhigh := high.toNat_lt
    have hlow := low.toNat_lt
    simp only [wordSum, List.length_cons]
    omega
  | [high] => by
    have hhigh := high.toNat_lt
    simp only [wordSum, List.length_cons, List.length_nil]
    omega
  | [] => Nat.zero_le _

theorem wordSum_replicate (n : Nat) (b : UInt8) :
    wordSum (List.replicate (2 * n) b) = n * (257 * b.toNat) := by
  induction n with
  | zero => rw [Nat.zero_mul]; rfl
  | succ n ih =>
    rw [Nat.mul_succ, List.replicate_succ, List.replicate_succ, wordSum, ih]
    ring

/-! ### The checksum -/

theorem toNat_sum32 (ws : List UInt16) :
    (sum32 ws).toNat = (ws.map UInt16.toNat).sum % 2 ^ 32 := by
  induction ws using List.reverseRecOn with
  | nil => rfl
  | append_singleton ws w ih =>
    rw [sum32, List.foldl_append, ← sum32, List.foldl_cons, List.foldl_nil, UInt32.toNat_add, ih,
      List.map_append, List.sum_append, List.map_singleton, List.sum_singleton,
      UInt16.toNat_toUInt32, Nat.mod_add_mod]

/-- The checksum is the complement of the reduced sum, as far as the register holds it. -/
theorem toNat_csum16 (message : List UInt8) :
    (csum16 message).toNat = 65535 - endAroundCarry (wordSum message % 2 ^ 32) := by
  have hlt := foldCarry_lt (wordSum message % 2 ^ 32)
  rw [csum16, toNat_sum32, ← wordSum_eq, UInt16.toNat_not, UInt16.toNat_ofNat',
    Nat.mod_eq_of_lt hlt, foldCarry_eq]
  rfl

theorem toNat_csum16_eq_iff (message : List UInt8) :
    (csum16 message).toNat = 65535 - endAroundCarry (wordSum message) ↔
      65535 ∣ wordSum message / 2 ^ 32 ∧
        (wordSum message % 2 ^ 32 = 0 → wordSum message = 0) := by
  have hkept := endAroundCarry_le (wordSum message % 2 ^ 32)
  have hall := endAroundCarry_le (wordSum message)
  rw [toNat_csum16, ← endAroundCarry_mod_iff]
  omega

/-- A message with its checksum behind it has the checksum zero, also where the register overflows:
the two more bytes then do not make it overflow once more. -/
theorem csum16_append {message : List UInt8} (h : message.length % 2 = 0) :
    csum16 (message ++ bigEndian 2 (csum16 message).toNat) = 0 := by
  have hlt : wordSum message % 2 ^ 32 < 2 ^ 32 := Nat.mod_lt _ (by decide)
  obtain ⟨htotal, hones⟩ := endAroundCarry_add_complement hlt
  have hchecksum : (csum16 message).toNat < 65536 := (csum16 message).toNat_lt
  have hsum : wordSum (message ++ bigEndian 2 (csum16 message).toNat) % 2 ^ 32 =
      wordSum message % 2 ^ 32 + (65535 - endAroundCarry (wordSum message % 2 ^ 32)) := by
    rw [wordSum_append h, wordSum_bigEndian hchecksum, ← Nat.mod_add_mod, toNat_csum16]
    exact Nat.mod_eq_of_lt htotal
  apply UInt16.toNat_inj.mp
  rw [toNat_csum16, hsum, hones]
  rfl

/-- `csum16` is the internet checksum of a message exactly when what the register loses counts for
nothing; so it is for up to 131074 bytes.  Whether or not, a message of whole words with its
checksum behind it has the checksum zero. -/
theorem csum16_eq_complement (message : List UInt8) :
    (csum16 message).toNat = 65535 - endAroundCarry (wordSum message % 2 ^ 32) ∧
      ((csum16 message).toNat = 65535 - endAroundCarry (wordSum message) ↔
        65535 ∣ wordSum message / 2 ^ 32 ∧
          (wordSum message % 2 ^ 32 = 0 → wordSum message = 0)) ∧
      (message.length ≤ 131074 →
        (csum16 message).toNat = 65535 - endAroundCarry (wordSum message)) ∧
      (message.length % 2 = 0 →
        csum16 (message ++ bigEndian 2 (csum16 message).toNat) = 0) := by
  refine ⟨toNat_csum16 message, toNat_csum16_eq_iff message, fun hlength => ?_, csum16_append⟩
  have hsum : wordSum message < 2 ^ 32 := by
    calc wordSum message ≤ 65535 * ((message.length + 1) / 2) := wordSum_le message
      _ ≤ 65535 * 65537 := Nat.mul_le_mul_left _ (by omega)
      _ < 2 ^ 32 := by decide
  rw [toNat_csum16, Nat.mod_eq_of_lt hsum]

/-- Four words with a carry, and their checksum behind them. -/
theorem csum16_of_four_words :
    (csum16 [0x00, 0x01, 0xf2, 0x03, 0xf4, 0xf5, 0xf6, 0xf7]).toNat = 65535 - 0xddf2 ∧
      csum16 ([0x00, 0x01, 0xf2, 0x03, 0xf4, 0xf5, 0xf6, 0xf7] ++ [0x22, 0x0d]) = 0 := by
  have hall := csum16_eq_complement [0x00, 0x01, 0xf2, 0x03, 0xf4, 0xf5, 0xf6, 0xf7]
  obtain ⟨-, -, hchecksum, hzero⟩ := hall
  have hbytes : bigEndian 2 (65535 - 0xddf2) = [0x22, 0x0d] := by decide
  have hvalue := hchecksum (by decide)
  rw [hvalue] at hzero
  exact ⟨hvalue, hbytes ▸ hzero (by decide)⟩

/-- The words of 131075 bytes of ones leave the register: the checksum is one too high. -/
theorem csum16_overflow :
    csum16 (List.replicate 131075 0xFF) = 256 ∧
      65535 - endAroundCarry (wordSum (List.replicate 131075 0xFF)) = 255 := by
  have hsum : wordSum (List.replicate 131075 0xFF) = 4295032575 := by
    have hwords : (List.replicate (2 * 65537) (0xFF : UInt8)).length % 2 = 0 := by
      rw [List.length_replicate]
    rw [show 131075 = 2 * 65537 + 1 from rfl, ← List.replicate_append_replicate,
      wordSum_append hwords, wordSum_replicate]
    rfl
  refine ⟨UInt16.toNat_inj.mp ?_, ?_⟩
  · rw [toNat_csum16, hsum]
    rfl
  · rw [hsum]
    rfl

end LiveSwitch.Hash
