import LiveSwitch.Json.Reader
import LiveSwitch.Json.Writer
import Mathlib.Data.String.Basic
import Mathlib.Tactic.IntervalCases

/-!
# Numbers and strings read back

The reader gives back an integer that fits in 64 bits, and any string, from its text.  Each part
of the reader gets a text that goes on after the part it is to read, as a document goes on after
a value inside it.

## Main definitions

* `Reader.Ends` — a text before which a number ends.
* `Reader.FitsWord` — the integers that are read back.

## Main results

* `Reader.number_text` — an integer is read from its text.
* `Reader.stringBody_escapedText` — a string is read up to its closing mark.
-/

namespace LiveSwitch.Json

namespace Reader

/-! ### Numbers -/

/-- A text before which a number ends. -/
def Ends (cs : List Char) : Prop :=
  ∀ c ∈ cs.head?, c.isDigit = false ∧ c ≠ '.' ∧ c ≠ 'e' ∧ c ≠ 'E'

/-- The value of the digits read after others. -/
def foldDigits (n : Nat) (ds : List Nat) : Nat := ds.foldl (fun n d => n * 10 + d) n

theorem le_foldDigits (n : Nat) (ds : List Nat) : n ≤ foldDigits n ds := by
  induction ds generalizing n with
  | nil => exact Nat.le_refl n
  | cons d ds ih =>
    have h := ih (n * 10 + d)
    rw [foldDigits, List.foldl_cons]
    rw [foldDigits] at h
    omega

/-- A number that fits in 64 bits is not cut. -/
theorem pushWhole_eq {n : Nat} {ds : List Nat} (h : foldDigits n ds < UInt64.size) :
    Decimal.pushWhole ⟨n, 0⟩ ds = ⟨foldDigits n ds, 0⟩ := by
  induction ds generalizing n with
  | nil => rfl
  | cons d ds ih =>
    have hle := le_foldDigits (n * 10 + d) ds
    have hfull : Decimal.full ⟨n, 0⟩ d = false := by
      rw [Decimal.full, decide_eq_false_iff_not, Nat.not_le]
      exact Nat.lt_of_le_of_lt hle h
    rw [Decimal.pushWhole, hfull]
    exact ih h

/-- The digits of a text, by value. -/
def digitValues (cs : List Char) : List Nat := cs.map fun c => c.toNat - '0'.toNat

theorem foldDigits_toDigits (n : Nat) : foldDigits 0 (digitValues (Nat.toDigits 10 n)) = n := by
  rw [foldDigits, digitValues, List.foldl_map]
  have hread := Nat.ofDigitChars_toDigits (b := 10) (n := n) (by decide) (by decide)
  simpa only [Nat.ofDigitChars, Nat.mul_comm] using hread

theorem digits_toDigits (n : Nat) {rest : List Char} (h : Ends rest) :
    digits (Nat.toDigits 10 n ++ rest) = (digitValues (Nat.toDigits 10 n), rest) := by
  have hdigits : ∀ c ∈ Nat.toDigits 10 n, c.isDigit = true := fun c hc =>
    Nat.isDigit_of_mem_toDigits (by decide) (by decide) hc
  have hrest : rest.takeWhile (·.isDigit) = [] ∧ rest.dropWhile (·.isDigit) = rest := by
    cases rest with
    | nil => exact ⟨rfl, rfl⟩
    | cons c cs =>
      have hc := (h c rfl).1
      simp [hc]
  rw [digits, List.takeWhile_append_of_pos hdigits, List.dropWhile_append_of_pos hdigits, hrest.1,
    hrest.2, List.append_nil]
  rfl

/-- A number does not start with a zero unless it is zero. -/
theorem head?_digitValues {n : Nat} (h : (digitValues (Nat.toDigits 10 n)).head? = some 0) :
    (digitValues (Nat.toDigits 10 n)).length = 1 := by
  have hhead : ∀ n : Nat, 0 < n → (digitValues (Nat.toDigits 10 n)).head? ≠ some 0 := by
    intro n
    induction n using Nat.strongRecOn with
    | ind n ih =>
      intro hn
      by_cases hlt : n < 10
      · rw [Nat.toDigits_of_lt_base hlt]
        have hvalue := Nat.toNat_digitChar_of_lt_ten hlt
        simp [digitValues, hvalue]
        omega
      · rw [Nat.toDigits_of_base_le (by decide) (by omega), digitValues, List.map_append,
          List.head?_append_of_ne_nil]
        · exact ih (n / 10) (by omega) (by omega)
        · simp
  rcases Nat.eq_zero_or_pos n with rfl | hn
  · rfl
  · exact absurd h (hhead n hn)

theorem fractionPart_of_ends {cs : List Char} (h : Ends cs) :
    fractionPart cs = some (none, cs) := by
  cases cs with
  | nil => rfl
  | cons c cs =>
    have hc := (h c rfl).2.1
    unfold fractionPart
    split
    case h_1 heq =>
      cases heq
      exact absurd rfl hc
    case h_2 => rfl

theorem exponentPart_of_ends {cs : List Char} (h : Ends cs) :
    exponentPart cs = some (none, cs) := by
  cases cs with
  | nil => rfl
  | cons c cs =>
    obtain ⟨-, -, he, hE⟩ := h c rfl
    rw [exponentPart, if_neg (by simp [he, hE])]

theorem unsignedNumber_toDigits (negative : Bool) {n : Nat} (hn : n < UInt64.size)
    {rest : List Char} (h : Ends rest) :
    unsignedNumber negative (Nat.toDigits 10 n ++ rest) =
      (wholeNumber? negative ⟨n, 0⟩).map fun x => (x, rest) := by
  have hne : digitValues (Nat.toDigits 10 n) ≠ [] := by
    rw [digitValues, ne_eq, List.map_eq_nil_iff]
    exact Nat.toDigits_ne_nil
  have hguard : digitValues (Nat.toDigits 10 n) ≠ [] ∧
      ((digitValues (Nat.toDigits 10 n)).head? = some 0 →
        (digitValues (Nat.toDigits 10 n)).length = 1) := ⟨hne, head?_digitValues⟩
  have hpush : Decimal.pushWhole ⟨0, 0⟩ (digitValues (Nat.toDigits 10 n)) = ⟨n, 0⟩ := by
    rw [pushWhole_eq, foldDigits_toDigits]
    rw [foldDigits_toDigits]
    exact hn
  rw [unsignedNumber, digits_toDigits n h]
  simp only [guard, if_pos hguard, hpush, fractionPart_of_ends h, Option.pure_def,
    Option.bind_eq_bind, Option.bind_some, exponentPart_of_ends h]
  exact Option.map_eq_bind.symm

/-- An integer that fits in 64 bits, signed or unsigned. -/
def FitsWord (n : Int) : Prop := -2 ^ 63 ≤ n ∧ n < 2 ^ 64

instance (n : Int) : Decidable (FitsWord n) := inferInstanceAs (Decidable (_ ∧ _))

/-- An integer that fits in 64 bits is read from its text. -/
theorem number_text {n : Int} (hn : FitsWord n) {rest : List Char} (h : Ends rest) :
    number ((Number.text (.integer n)).toList ++ rest) = some (.integer n, rest) := by
  obtain ⟨hlow, hhigh⟩ := hn
  cases n with
  | ofNat n =>
    have hlist : (Number.text (.integer (.ofNat n))).toList = Nat.toDigits 10 n :=
      String.toList_ofList
    have hlt : n < UInt64.size := by
      have hcast : (n : Int) < 2 ^ 64 := hhigh
      rw [UInt64.size]
      omega
    have hread := unsignedNumber_toDigits false hlt h
    rw [hlist]
    unfold number
    split
    case h_1 cs heq =>
      have hmem : '-' ∈ Nat.toDigits 10 n := by
        have hhead := congrArg List.head? heq
        rw [List.head?_append_of_ne_nil _ Nat.toDigits_ne_nil] at hhead
        exact List.mem_of_mem_head? hhead
      have hdigit := Nat.isDigit_of_mem_toDigits (by decide) (by decide) hmem
      cases hdigit
    case h_2 =>
      rw [hread, wholeNumber?, if_pos ⟨rfl, rfl⟩]
      rfl
  | negSucc m =>
    have hlist : (Number.text (.integer (.negSucc m))).toList = '-' :: Nat.toDigits 10 (m + 1) := by
      have hminus : "-".toList = ['-'] := rfl
      show ("-" ++ Nat.repr (m + 1)).toList = _
      rw [String.toList_append, hminus, Nat.repr, String.toList_ofList]
      rfl
    have hle : m + 1 ≤ 2 ^ 63 := by omega
    have hdouble : 2 * (m + 1) ≤ UInt64.size := by
      rw [UInt64.size]
      omega
    have hlt : m + 1 < UInt64.size := by omega
    rw [hlist, List.cons_append, number, unsignedNumber_toDigits true hlt h, wholeNumber?,
      if_neg (by simp), if_pos ⟨rfl, Nat.succ_pos m, hdouble⟩]
    rfl

/-! ### Strings -/

variable {acc : List Char} {cs : List Char}

/-- An escape by the code of a character, which is no half of a surrogate pair. -/
theorem stringBody_code {a b c d : Char} {u : Nat} (h : hex4? a b c d = some u)
    (hhigh : isHigh u = false) (hlow : isLow u = false) :
    stringBody acc ('\\' :: 'u' :: a :: b :: c :: d :: cs) =
      stringBody (Char.ofNat u :: acc) cs := by
  conv => lhs; unfold stringBody
  split
  case h_1 heq => cases heq
  case h_2 heq =>
    -- the code of the next character follows at once, and is left to be read
    cases heq
    simp [h, hhigh, hlow]
  case h_3 heq =>
    cases heq
    simp [h, hhigh, hlow]
  case h_4 hcode heq =>
    cases heq
    exact (hcode _ _ _ _ _ rfl rfl).elim
  case h_5 hletter heq =>
    cases heq
    exact (hletter _ _ rfl rfl).elim
  case h_6 heq => cases heq

/-- An escape of one letter. -/
theorem stringBody_letter {c e : Char} (hc : c ≠ 'u') (h : letterEscape? c = some e) :
    stringBody acc ('\\' :: c :: cs) = stringBody (e :: acc) cs := by
  conv => lhs; unfold stringBody
  split
  case h_1 heq => cases heq
  case h_2 heq =>
    cases heq
    exact absurd rfl hc
  case h_3 heq =>
    cases heq
    exact absurd rfl hc
  case h_4 heq =>
    cases heq
    rw [h]
    rfl
  case h_5 hletter heq =>
    cases heq
    exact (hletter _ _ rfl rfl).elim
  case h_6 heq => cases heq

/-- A character that stands for itself. -/
theorem stringBody_self {c : Char} (hquote : c ≠ '"') (hescape : c ≠ '\\') (hc : ¬c.toNat < 32) :
    stringBody acc (c :: cs) = stringBody (c :: acc) cs := by
  conv => lhs; unfold stringBody
  split
  case h_1 heq =>
    cases heq
    exact absurd rfl hquote
  case h_2 heq =>
    cases heq
    exact absurd rfl hescape
  case h_3 heq =>
    cases heq
    exact absurd rfl hescape
  case h_4 heq =>
    cases heq
    exact absurd rfl hescape
  case h_5 heq =>
    cases heq
    rw [if_neg hc]
  case h_6 heq => cases heq

theorem hexDigit?_digitChar {d : Nat} (h : d < 16) : hexDigit? d.digitChar = some d := by
  interval_cases d <;> rfl

/-- A character is read from the text that stands for it in a string. -/
theorem stringBody_escaped (c : Char) :
    stringBody acc ((escaped c).toList ++ cs) = stringBody (c :: acc) cs := by
  unfold escaped
  split
  case isTrue h => exact h ▸ stringBody_letter (by decide) rfl
  split
  case isTrue h => exact h ▸ stringBody_letter (by decide) rfl
  split
  case isTrue h => exact h ▸ stringBody_letter (by decide) rfl
  split
  case isTrue h => exact h ▸ stringBody_letter (by decide) rfl
  split
  case isTrue h => exact h ▸ stringBody_letter (by decide) rfl
  split
  case isTrue h =>
    rw [← Char.ofNat_toNat c, h]
    exact stringBody_letter (by decide) rfl
  split
  case isTrue h =>
    rw [← Char.ofNat_toNat c, h]
    exact stringBody_letter (by decide) rfl
  split
  case isTrue hlt =>
    have hcode : hex4? '0' '0' (Nat.digitChar (c.toNat / 16)) (Nat.digitChar (c.toNat % 16)) =
        some c.toNat := by
      rw [hex4?, hexDigit?_digitChar (by omega : c.toNat / 16 < 16),
        hexDigit?_digitChar (by omega : c.toNat % 16 < 16)]
      show some (((0 * 16 + 0) * 16 + c.toNat / 16) * 16 + c.toNat % 16) = some c.toNat
      rw [Option.some.injEq]
      omega
    have hprefix : "\\u00".toList = ['\\', 'u', '0', '0'] := rfl
    rw [String.toList_append, hprefix, String.toList_ofList, List.append_assoc]
    have hread : stringBody acc ('\\' :: 'u' :: '0' :: '0' :: _ :: _ :: cs) = _ :=
      stringBody_code hcode (by simp [isHigh]; omega) (by simp [isLow]; omega)
    rwa [Char.ofNat_toNat] at hread
  case isFalse hquote hescape _ _ _ _ _ hlt =>
    rw [String.toList_singleton]
    exact stringBody_self hquote hescape hlt

/-- What stands between the quotation marks of a string. -/
def escapedText (s : String) : List Char := s.toList.flatMap fun c => (escaped c).toList

theorem toList_quoted (s : String) : (quoted s).toList = '"' :: (escapedText s ++ ['"']) := by
  have hmark : "\"".toList = ['"'] := rfl
  have hjoin : (String.join (s.toList.map escaped)).toList = escapedText s := by
    rw [String.toList_join, List.flatMap_map, escapedText]
  rw [quoted, String.toList_append, String.toList_append, hmark, hjoin]
  rfl

/-- A string is read up to its closing mark. -/
theorem stringBody_escapedText (s : String) (rest : List Char) :
    stringBody [] (escapedText s ++ '"' :: rest) = some (s, rest) := by
  have hread : ∀ chars acc : List Char, stringBody acc
      ((chars.flatMap fun c => (escaped c).toList) ++ '"' :: rest) =
        some (String.ofList (acc.reverse ++ chars), rest) := by
    intro chars
    induction chars with
    | nil =>
      intro acc
      rw [List.flatMap_nil, List.nil_append, List.append_nil]
      unfold stringBody
      rfl
    | cons c chars ih =>
      intro acc
      rw [List.flatMap_cons, List.append_assoc, stringBody_escaped, ih, List.reverse_cons,
        List.append_assoc]
      rfl
  have h := hread s.toList []
  rwa [List.reverse_nil, List.nil_append, String.ofList_toList] at h

end Reader

end LiveSwitch.Json
