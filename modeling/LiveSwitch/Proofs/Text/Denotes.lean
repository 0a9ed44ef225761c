import LiveSwitch.Proofs.Text.Constants
import LiveSwitch.Proofs.Text.Numerals

/-!
# What a constant stands for

A constant is a numeral with a mark ahead of it, which tells the base.  It stands for the number
of its digits.  A word is read from the constants of its number and from no other text, so a
number that is too large for a word has constants that are not read.

## Main definitions

* `Constant.IsMark`, `Constant.Denotes` — the marks of the bases, and the constants of a number.

## Main results

* `Constant.parse?_eq_some_iff` — a word is read from the constants of its number.
* `Text.isNumeral_pad` — zeros ahead of the digits do not change the number.
* `Constant.constants_round_trip` — writing and reading, and what is read.
-/

namespace LiveSwitch

namespace Text

/-- Digits are a numeral of their number, with or without a sign, and with any number of zeros
ahead of them. -/
theorem isNumeral_pad {base : Nat} (hbase : 0 < base) {sign digits : List Char} {values : List Nat}
    (zeros : Nat) (hsign : sign = [] ∨ sign = ['+']) (hne : digits ≠ [])
    (hvalues : digits.Forall₂ (IsDigit base) values) :
    IsNumeral base (sign ++ List.replicate zeros '0' ++ digits)
      (Nat.ofDigits base values.reverse) := by
  have hpad : (List.replicate zeros '0' ++ digits).Forall₂ (IsDigit base)
        (List.replicate zeros 0 ++ values) ∧
      Nat.ofDigits base (List.replicate zeros 0 ++ values).reverse =
        Nat.ofDigits base values.reverse := by
    induction zeros with
    | zero => exact ⟨hvalues, rfl⟩
    | succ zeros ih =>
      rw [List.replicate_succ, List.replicate_succ, List.cons_append, List.cons_append,
        Nat.ofDigits_reverse_zero_cons]
      exact ⟨.cons ⟨hbase, Or.inl rfl⟩ ih.1, ih.2⟩
  refine ⟨_, _, ?_, ?_, hpad.1, hpad.2.symm⟩
  · rcases hsign with rfl | rfl
    · exact Or.inl rfl
    · exact Or.inr rfl
  · simp [hne]

end Text

namespace Constant

open Text

/-- The mark of a base: `0x` or `0X` for sixteen, and none for ten. -/
inductive IsMark : List Char → Nat → Prop where
  | hex : IsMark ['0', 'x'] 16
  | upperHex : IsMark ['0', 'X'] 16
  | decimal : IsMark [] 10

/-- A text is a constant of a number: a mark and then a numeral of the number, in the base of the
mark. -/
def Denotes (cs : List Char) (n : Nat) : Prop :=
  ∃ mark base numeral, IsMark mark base ∧ cs = mark ++ numeral ∧ IsNumeral base numeral n

theorem IsMark.base_le {mark : List Char} {base : Nat} (h : IsMark mark base) :
    0 < base ∧ base ≤ 16 := by
  cases h <;> decide

/-- No decimal numeral begins like a hexadecimal constant. -/
theorem not_isNumeral_hex {x : Char} (hx : x = 'x' ∨ x = 'X') (ds : List Char) (n : Nat) :
    ¬IsNumeral 10 ('0' :: x :: ds) n := by
  rw [← numeral?_eq_some_iff (by decide)]
  have hnone : numeral? 10 ('0' :: x :: ds) = none := by
    rcases hx with rfl | rfl <;> rfl
  rw [hnone]
  exact nofun

/-- The number of a constant, whether or not it fits in a word. -/
def number? : List Char → Option Nat
  | '0' :: 'x' :: ds => numeral? 16 ds
  | '0' :: 'X' :: ds => numeral? 16 ds
  | ds => numeral? 10 ds

theorem parse?_eq (s : String) :
    parse? s = ((number? s.toList).filter (· < UInt64.size)).map UInt64.ofNat :=
  rfl

theorem number?_eq_some_iff {cs : List Char} {n : Nat} : number? cs = some n ↔ Denotes cs n := by
  constructor
  · intro h
    unfold number? at h
    split at h
    case h_1 => exact ⟨_, _, _, .hex, rfl, (numeral?_eq_some_iff (by decide)).mp h⟩
    case h_2 => exact ⟨_, _, _, .upperHex, rfl, (numeral?_eq_some_iff (by decide)).mp h⟩
    case h_3 => exact ⟨_, _, _, .decimal, rfl, (numeral?_eq_some_iff (by decide)).mp h⟩
  · rintro ⟨mark, base, numeral, hmark, rfl, hn⟩
    cases hmark with
    | hex | upperHex => exact (numeral?_eq_some_iff (by decide)).mpr hn
    | decimal =>
      -- without a mark the text must not be taken for a marked one
      rw [List.nil_append]
      unfold number?
      split
      case h_1 ds => exact absurd hn (not_isNumeral_hex (Or.inl rfl) ds n)
      case h_2 ds => exact absurd hn (not_isNumeral_hex (Or.inr rfl) ds n)
      case h_3 => exact (numeral?_eq_some_iff (by decide)).mpr hn

/-- A text has the word of the number that it is a constant of, if the number fits. -/
theorem parse?_of_denotes {s : String} {n : Nat} (h : Denotes s.toList n) :
    parse? s = if n < 2 ^ 64 then some (UInt64.ofNat n) else none := by
  have hsize : UInt64.size = 2 ^ 64 := rfl
  rw [parse?_eq, number?_eq_some_iff.mpr h, hsize, Option.filter_some]
  by_cases hn : n < 2 ^ 64
  · rw [if_pos hn, if_pos (decide_eq_true hn), Option.map_some]
  · rw [if_neg hn, if_neg (by simpa using hn), Option.map_none]

/-- A word is read from the constants of its number, and from nothing else. -/
theorem parse?_eq_some_iff {s : String} {v : UInt64} :
    parse? s = some v ↔ Denotes s.toList v.toNat := by
  constructor
  · intro h
    obtain ⟨n, hn, rfl⟩ := Option.map_eq_some_iff.mp h
    obtain ⟨hn, hlt⟩ := Option.filter_eq_some_iff.mp hn
    rw [UInt64.toNat_ofNat_of_lt' (of_decide_eq_true hlt)]
    exact number?_eq_some_iff.mp hn
  · intro h
    rw [parse?_of_denotes h, if_pos v.toNat_lt, UInt64.ofNat_toNat]

/-- Every word is read from the text that is written for it.  What is read is the number that a
text stands for, with the mark of its base and a sign or none, and every such text is read unless
its number does not fit in 64 bits, whatever number of zeros it has ahead of its digits. -/
theorem constants_round_trip :
    (∀ v, parse? (text v) = some v) ∧
    (∀ s v, parse? s = some v ↔ Denotes s.toList v.toNat) ∧
    (∀ s n, Denotes s.toList n →
      parse? s = if n < 2 ^ 64 then some (UInt64.ofNat n) else none) ∧
    ∀ mark base sign zeros digits values, IsMark mark base → (sign = [] ∨ sign = ['+']) →
      digits ≠ [] → digits.Forall₂ (IsDigit base) values →
      let n := Nat.ofDigits base values.reverse
      parse? (String.ofList (mark ++ (sign ++ List.replicate zeros '0' ++ digits))) =
        if n < 2 ^ 64 then some (UInt64.ofNat n) else none := by
  refine ⟨parse?_text, fun s v => parse?_eq_some_iff, fun s n => parse?_of_denotes, ?_⟩
  intro mark base sign zeros digits values hmark hsign hne hvalues n
  have hnumeral := isNumeral_pad hmark.base_le.1 zeros hsign hne hvalues
  refine parse?_of_denotes ⟨mark, base, _, hmark, ?_, hnumeral⟩
  rw [String.toList_ofList]

/-- Zeros and a sign between an upper-case mark and digits in both cases, and the first number that
does not fit, with zeros ahead. -/
theorem constants_round_trip_padded :
    ['f', 'F'].Forall₂ (IsDigit 16) [15, 15] ∧ parse? "0X+000fF" = some 255 ∧
      Denotes "0X+000fF".toList 255 ∧ parse? "000000018446744073709551616" = none := by
  obtain ⟨-, hexact, -, hpadded⟩ := constants_round_trip
  have hdigits : ['f', 'F'].Forall₂ (IsDigit 16) [15, 15] :=
    .cons ⟨by decide, Or.inl rfl⟩ (.cons ⟨by decide, Or.inr rfl⟩ .nil)
  have hread : parse? "0X+000fF" = some 255 :=
    hpadded ['0', 'X'] 16 ['+'] 3 ['f', 'F'] [15, 15] .upperHex (Or.inr rfl) (by decide) hdigits
  have hlarge : "18446744073709551616".toList.Forall₂ (IsDigit 10)
      [1, 8, 4, 4, 6, 7, 4, 4, 0, 7, 3, 7, 0, 9, 5, 5, 1, 6, 1, 6] := by
    simp [IsDigit, List.forall₂_cons]
  exact ⟨hdigits, hread, (hexact _ _).mp hread,
    hpadded [] 10 [] 7 _ _ .decimal (Or.inl rfl) (by decide) hlarge⟩

end Constant

end LiveSwitch
