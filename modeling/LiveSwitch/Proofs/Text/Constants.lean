import LiveSwitch.Text.Numeral
import Mathlib.Tactic.IntervalCases

/-!
# Constants and counts read back

A word is written in hexadecimal digits and a count in decimal ones, and both are read from
them: the digits are a left fold, so reading follows the recursion that writes them from the
front.

## Main results

* `Text.numeral?_toDigits` — a number is read from its digits.
* `Constant.parse?_text` — a constant is read from its own text.
-/

namespace LiveSwitch

namespace Text

/-- The digits of two runs are read one run after the other. -/
theorem digits?_append (base acc : Nat) (cs ds : List Char) :
    digits? base acc (cs ++ ds) = (digits? base acc cs).bind fun a => digits? base a ds := by
  induction cs generalizing acc with
  | nil => rfl
  | cons c cs ih =>
    rw [List.cons_append, digits?, digits?]
    cases digit? base c with
    | none => rfl
    | some d => exact ih _

theorem digit?_digitChar {base d : Nat} (hbase : base ≤ 16) (h : d < base) :
    digit? base d.digitChar = some d := by
  have hfilter : (some d).filter (· < base) = some d := by
    rw [Option.filter_some, if_pos (by simpa using h)]
  have hd : d < 16 := by omega
  interval_cases d <;> exact hfilter

/-- A number is read from its digits. -/
theorem digits?_toDigits {base : Nat} (hone : 1 < base) (hbase : base ≤ 16) (n : Nat) :
    digits? base 0 (Nat.toDigits base n) = some n := by
  induction n using Nat.strongRecOn with
  | ind n ih =>
    by_cases h : n < base
    · rw [Nat.toDigits_of_lt_base h, digits?, digit?_digitChar hbase h, Option.bind_some, digits?]
      simp
    · have hlt : n / base < n := Nat.div_lt_self (by omega) hone
      have hmod : n % base < base := Nat.mod_lt _ (by omega)
      rw [Nat.toDigits_of_base_le hone (by omega), digits?_append, ih (n / base) hlt,
        Option.bind_some, digits?, digit?_digitChar hbase hmod, Option.bind_some, digits?,
        Nat.div_add_mod']

/-- A sign is no digit. -/
theorem digits?_plus (base acc : Nat) (cs : List Char) : digits? base acc ('+' :: cs) = none := by
  have hsign : digit? base '+' = none := rfl
  rw [digits?, hsign, Option.bind_none]

theorem numeral?_toDigits {base : Nat} (hone : 1 < base) (hbase : base ≤ 16) (n : Nat) :
    numeral? base (Nat.toDigits base n) = some n := by
  have hdigits := digits?_toDigits hone hbase n
  have hne : Nat.toDigits base n ≠ [] := Nat.toDigits_ne_nil
  revert hdigits hne
  generalize Nat.toDigits base n = ds
  intro hdigits hne
  cases ds with
  | nil => exact absurd rfl hne
  | cons c ds =>
    have hc : c ≠ '+' := by
      rintro rfl
      rw [digits?_plus] at hdigits
      cases hdigits
    unfold numeral?
    split
    case h_1 heq =>
      cases heq
      exact absurd rfl hc
    case h_2 => exact hdigits

end Text

/-- A constant is read from its own text. -/
theorem Constant.parse?_text (v : UInt64) : parse? (text v) = some v := by
  have hlist : (text v).toList = '0' :: 'x' :: Nat.toDigits 16 v.toNat := by
    have hprefix : "0x".toList = ['0', 'x'] := rfl
    rw [text, String.toList_append, hprefix, String.toList_ofList (l := Nat.toDigits 16 _)]
    rfl
  have hlt : v.toNat < UInt64.size := v.toNat_lt_size
  unfold parse?
  rw [hlist]
  show ((Text.numeral? 16 (Nat.toDigits 16 v.toNat)).filter _).map _ = _
  rw [Text.numeral?_toDigits (by decide) (by decide), Option.filter_some,
    if_pos (by simpa using hlt), Option.map_some, UInt64.ofNat_toNat]

end LiveSwitch
