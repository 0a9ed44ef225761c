import LiveSwitch.Text.Numeral
import Mathlib.Data.Nat.Digits.Defs
import Mathlib.Tactic.IntervalCases
import Mathlib.Tactic.Ring

/-!
# What a numeral is

A numeral is a run of digits, with one plus sign ahead of it or none, and it stands for the number
that its digits make.  Leading zeros are digits like any other, so a number has many numerals.

## Main definitions

* `Text.IsDigit` — the characters of a digit.
* `Text.IsNumeral` — the texts of a number.

## Main results

* `Text.numeral?_eq_some_iff` — the numerals of a number are the texts that it is read from.
-/

namespace LiveSwitch.Text

/-- A character is the digit of a value, in either case. -/
def IsDigit (base : Nat) (c : Char) (d : Nat) : Prop :=
  d < base ∧ (c = d.digitChar ∨ c = d.digitChar.toUpper)

/-- A text is a numeral of a number: digits, at least one, with one `+` ahead of them or none. -/
def IsNumeral (base : Nat) (cs : List Char) (n : Nat) : Prop :=
  ∃ digits values, (cs = digits ∨ cs = '+' :: digits) ∧ digits ≠ [] ∧
    digits.Forall₂ (IsDigit base) values ∧ n = Nat.ofDigits base values.reverse

/-- A digit is read as its value. -/
theorem digit?_eq_some_iff {base : Nat} (hbase : base ≤ 16) {c : Char} {d : Nat} :
    digit? base c = some d ↔ IsDigit base c d := by
  rw [digit?, Option.filter_eq_some_iff, decide_eq_true_eq, IsDigit]
  constructor
  · rintro ⟨hvalue, hlt⟩
    refine ⟨hlt, ?_⟩
    -- the code of the character is that of the digit
    have hcode : ∀ k : Char, c.toNat = k.toNat → c = k := fun _ => Char.toNat_inj.mp
    have hd : d < 16 := by omega
    split at hvalue
    case isTrue hrange =>
      have hlow : 48 ≤ c.toNat := UInt32.le_iff_toNat_le.mp hrange.1
      have hhigh : c.toNat ≤ 57 := UInt32.le_iff_toNat_le.mp hrange.2
      have heq : c.toNat = 48 + d := by
        have := Option.some.inj hvalue
        have hzero : '0'.toNat = 48 := rfl
        omega
      have hd' : d < 10 := by omega
      left
      apply hcode
      rw [heq]
      interval_cases d <;> rfl
    split at hvalue
    case isTrue hrange =>
      have hlow : 97 ≤ c.toNat := UInt32.le_iff_toNat_le.mp hrange.1
      have heq : c.toNat = 87 + d ∧ 10 ≤ d := by
        have := Option.some.inj hvalue
        have hletter : 'a'.toNat = 97 := rfl
        omega
      obtain ⟨heq, hd'⟩ := heq
      left
      apply hcode
      rw [heq]
      interval_cases d <;> rfl
    split at hvalue
    case isTrue hrange =>
      have hlow : 65 ≤ c.toNat := UInt32.le_iff_toNat_le.mp hrange.1
      have heq : c.toNat = 55 + d ∧ 10 ≤ d := by
        have := Option.some.inj hvalue
        have hletter : 'A'.toNat = 65 := rfl
        omega
      obtain ⟨heq, hd'⟩ := heq
      right
      apply hcode
      rw [heq]
      interval_cases d <;> rfl
    case isFalse => cases hvalue
  · rintro ⟨hlt, hc⟩
    refine ⟨?_, hlt⟩
    have hd : d < 16 := by omega
    rcases hc with rfl | rfl <;> interval_cases d <;> rfl

/-- Digits are read as the number that they stand for, after what was read before. -/
theorem digits?_eq_some_iff {base : Nat} (hbase : base ≤ 16) {acc : Nat} {cs : List Char}
    {n : Nat} : digits? base acc cs = some n ↔ ∃ values, cs.Forall₂ (IsDigit base) values ∧
      n = Nat.ofDigits base values.reverse + base ^ values.length * acc := by
  induction cs generalizing acc with
  | nil =>
    rw [digits?, Option.some.injEq]
    constructor
    · rintro rfl
      exact ⟨[], .nil, by simp⟩
    · rintro ⟨_, ⟨⟩, rfl⟩
      simp
  | cons c cs ih =>
    have hstep : ∀ (values : List Nat) (d : Nat),
        Nat.ofDigits base (d :: values).reverse + base ^ (d :: values).length * acc =
          Nat.ofDigits base values.reverse + base ^ values.length * (acc * base + d) := by
      intro values d
      rw [Nat.ofDigits_reverse_cons, List.length_cons]
      ring
    rw [digits?, Option.bind_eq_some_iff]
    constructor
    · rintro ⟨d, hd, hrest⟩
      obtain ⟨values, hvalues, rfl⟩ := ih.mp hrest
      exact ⟨d :: values, .cons ((digit?_eq_some_iff hbase).mp hd) hvalues, (hstep values d).symm⟩
    · rintro ⟨_, hvalues, rfl⟩
      cases hvalues with
      | cons hd hvalues =>
        exact ⟨_, (digit?_eq_some_iff hbase).mpr hd, ih.mpr ⟨_, hvalues, hstep _ _⟩⟩

/-- The digits of a number have no sign among them. -/
theorem IsDigit.ne_plus {base : Nat} (hbase : base ≤ 16) {c : Char} {d : Nat}
    (h : IsDigit base c d) : c ≠ '+' := by
  rintro rfl
  have hsign : digit? base '+' = none := rfl
  rw [(digit?_eq_some_iff hbase).mpr h] at hsign
  cases hsign

/-- A numeral is read as its number, and nothing else is read. -/
theorem numeral?_eq_some_iff {base : Nat} (hbase : base ≤ 16) {cs : List Char} {n : Nat} :
    numeral? base cs = some n ↔ IsNumeral base cs n := by
  -- without the sign
  have hdigits : ∀ ds : List Char, (if ds.isEmpty then none else digits? base 0 ds) = some n ↔
      ds ≠ [] ∧ ∃ values, ds.Forall₂ (IsDigit base) values ∧
        n = Nat.ofDigits base values.reverse := by
    intro ds
    cases ds with
    | nil => simp
    | cons c ds =>
      have hread : digits? base 0 (c :: ds) = some n ↔ _ := digits?_eq_some_iff hbase
      simpa using hread
  unfold numeral?
  split
  case h_1 ds =>
    rw [hdigits]
    constructor
    · rintro ⟨hne, values, hvalues, hn⟩
      exact ⟨ds, values, Or.inr rfl, hne, hvalues, hn⟩
    · rintro ⟨digits, values, hcs | hcs, hne, hvalues, hn⟩
      · subst hcs
        cases hvalues with
        | cons hd _ => exact absurd rfl (hd.ne_plus hbase)
      · cases hcs
        exact ⟨hne, values, hvalues, hn⟩
  case h_2 hsign =>
    rw [hdigits]
    constructor
    · rintro ⟨hne, values, hvalues, hn⟩
      exact ⟨cs, values, Or.inl rfl, hne, hvalues, hn⟩
    · rintro ⟨digits, values, hcs | hcs, hne, hvalues, hn⟩
      · exact hcs ▸ ⟨hne, values, hvalues, hn⟩
      · exact absurd hcs (hsign digits)

end LiveSwitch.Text
