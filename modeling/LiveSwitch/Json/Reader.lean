import LiveSwitch.Json.Value

/-!
# Reading JSON

A strict reader: no comments, no trailing commas, no leading zeros, no raw control
character and no lone surrogate in a string, and nothing but white space after the value.
A later field of the same key replaces an earlier one.  Arrays and objects nest at most
127 deep.

## Main definitions

* `Reader.number` — numbers: integers of 64 bits exactly, all others as binary64.
* `Reader.stringBody` — the rest of a string after its opening mark.
* `Reader.value` — one value at the front of a text.
* `Value.ofText?`, `Value.ofBytes?` — a whole document.
-/

namespace LiveSwitch.Json.Reader

/-- The white space of JSON. -/
def isSpace (c : Char) : Bool := c == ' ' || c == '\n' || c == '\t' || c == '\r'

/-- The text without its leading white space. -/
def skipSpace (cs : List Char) : List Char := cs.dropWhile isSpace

/-! ### Numbers -/

/-- A decimal number whose significand is cut to what fits in 64 bits: the value is
`significand * 10 ^ exponent`. -/
structure Decimal where
  significand : Nat
  exponent : Int
  deriving DecidableEq, Repr

/-- The digits at the front of a text, by value, and what follows them. -/
def digits (cs : List Char) : List Nat × List Char :=
  let p := fun (c : Char) => c.isDigit
  ((cs.takeWhile p).map fun c => c.toNat - '0'.toNat, cs.dropWhile p)

/-- Whether another digit would carry the significand beyond 64 bits. -/
def Decimal.full (d : Decimal) (digit : Nat) : Bool :=
  UInt64.size ≤ d.significand * 10 + digit

/-- Adds the digits of the integer part.  From the first digit that does not fit, every
digit only raises the exponent. -/
def Decimal.pushWhole (d : Decimal) : List Nat → Decimal
  | [] => d
  | x :: xs =>
    if d.full x then { d with exponent := d.exponent + Int.ofNat (xs.length + 1) }
    else Decimal.pushWhole { d with significand := d.significand * 10 + x } xs

/-- Adds the digits of the fraction.  From the first digit that does not fit, the digits
count for nothing. -/
def Decimal.pushFraction (d : Decimal) : List Nat → Decimal
  | [] => d
  | x :: xs =>
    if d.full x then d
    else Decimal.pushFraction ⟨d.significand * 10 + x, d.exponent - 1⟩ xs

/-- Scales `f` by a power of ten in steps of at most `10 ^ 308`; `none` when the result is
too large. -/
def scale (f : Float) (exponent : Int) : Nat → Option Float
  | 0 => some f
  | fuel + 1 =>
    if exponent.natAbs ≤ 308 then
      let power := Float.ofScientific 1 false exponent.natAbs
      if 0 ≤ exponent then
        let g := f * power
        if g.isInf then none else some g
      else some (f / power)
    else if f == 0.0 then some f
    else if 0 ≤ exponent then none
    else scale (f / Float.ofScientific 1 false 308) (exponent + (308 : Int)) fuel

/-- The binary64 of a decimal; `none` when it is too large. -/
def Decimal.real? (negative : Bool) (d : Decimal) : Option Number :=
  -- below `10 ^ -2000` every significand has become zero
  let exponent := max d.exponent (-2000)
  (scale d.significand.toUInt64.toFloat exponent 10).map fun f =>
    .real (if negative then -f else f).toBits

/-- The sign of an exponent and what follows it. -/
def exponentSign : List Char → Bool × List Char
  | '+' :: cs => (false, cs)
  | '-' :: cs => (true, cs)
  | cs => (false, cs)

/-- An exponent part, if there is one: its value and what follows it.  `none` when the
mark stands without digits. -/
def exponentPart : List Char → Option (Option Int × List Char)
  | c :: cs =>
    if c = 'e' ∨ c = 'E' then
      let (negative, cs) := exponentSign cs
      match digits cs with
      | ([], _) => none
      | (ds, rest) =>
        let n : Nat := ds.foldl (fun n d => n * 10 + d) 0
        some (some (if negative then -(n : Int) else n), rest)
    else some (none, c :: cs)
  | [] => some (none, [])

/-- A fraction part, if there is one: its digits and what follows it.  `none` when the
point stands without digits. -/
def fractionPart : List Char → Option (Option (List Nat) × List Char)
  | '.' :: cs =>
    match digits cs with
    | ([], _) => none
    | (ds, rest) => some (some ds, rest)
  | cs => some (none, cs)

/-- An integer without sign that fits in 64 bits keeps its value; minus zero, an integer
below `-2^63` and one above `2^64 - 1` become a binary64. -/
def wholeNumber? (negative : Bool) (d : Decimal) : Option Number :=
  if d.exponent = 0 ∧ !negative then some (.integer d.significand)
  else if d.exponent = 0 ∧ 0 < d.significand ∧ 2 * d.significand ≤ UInt64.size then
    some (.integer (-(d.significand : Int)))
  else d.real? negative

/-- A number after its sign. -/
def unsignedNumber (negative : Bool) (cs : List Char) : Option (Number × List Char) := do
  let (whole, rest) := digits cs
  guard (whole ≠ [] ∧ (whole.head? = some 0 → whole.length = 1))
  let d := Decimal.pushWhole ⟨0, 0⟩ whole
  let (fraction?, rest) ← fractionPart rest
  let (exponent?, rest) ← exponentPart rest
  match fraction?, exponent? with
  | none, none => return (← wholeNumber? negative d, rest)
  | _, _ =>
    let d := d.pushFraction (fraction?.getD [])
    let d := { d with exponent := d.exponent + exponent?.getD 0 }
    return (← d.real? negative, rest)

/-- A number at the front of a text. -/
def number : List Char → Option (Number × List Char)
  | '-' :: cs => unsignedNumber true cs
  | cs => unsignedNumber false cs

/-! ### Strings -/

/-- The value of a hexadecimal digit. -/
def hexDigit? (c : Char) : Option Nat :=
  if c.isDigit then some (c.toNat - '0'.toNat)
  else if 'a' ≤ c ∧ c ≤ 'f' then some (c.toNat - 'a'.toNat + 10)
  else if 'A' ≤ c ∧ c ≤ 'F' then some (c.toNat - 'A'.toNat + 10)
  else none

/-- The value of four hexadecimal digits. -/
def hex4? (a b c d : Char) : Option Nat := do
  return (((← hexDigit? a) * 16 + (← hexDigit? b)) * 16 + (← hexDigit? c)) * 16 +
    (← hexDigit? d)

/-- The character of an escape of one letter. -/
def letterEscape? (c : Char) : Option Char :=
  if c = '"' then some '"'
  else if c = '\\' then some '\\'
  else if c = '/' then some '/'
  else if c = 'b' then some (Char.ofNat 8)
  else if c = 'f' then some (Char.ofNat 12)
  else if c = 'n' then some '\n'
  else if c = 'r' then some '\r'
  else if c = 't' then some '\t'
  else none

/-- Whether a unit is the first half of a surrogate pair. -/
def isHigh (u : Nat) : Bool := 0xD800 ≤ u && u < 0xDC00

/-- Whether a unit is the second half of a surrogate pair. -/
def isLow (u : Nat) : Bool := 0xDC00 ≤ u && u < 0xE000

/-- The rest of a string after its opening mark: the characters, put before those of
`acc` in reverse, and what follows the closing mark. -/
def stringBody (acc : List Char) : List Char → Option (String × List Char)
  | '"' :: cs => some (String.ofList acc.reverse, cs)
  | '\\' :: 'u' :: a :: b :: c :: d :: '\\' :: 'u' :: a' :: b' :: c' :: d' :: cs => do
    let u ← hex4? a b c d
    if isHigh u then
      let v ← hex4? a' b' c' d'
      if isLow v then
        stringBody (Char.ofNat (0x10000 + (u - 0xD800) * 0x400 + (v - 0xDC00)) :: acc) cs
      else none
    else if isLow u then none
    else stringBody (Char.ofNat u :: acc) ('\\' :: 'u' :: a' :: b' :: c' :: d' :: cs)
  | '\\' :: 'u' :: a :: b :: c :: d :: cs => do
    let u ← hex4? a b c d
    if isHigh u || isLow u then none else stringBody (Char.ofNat u :: acc) cs
  | '\\' :: c :: cs => do
    let e ← letterEscape? c
    stringBody (e :: acc) cs
  | c :: cs => if c.toNat < 32 then none else stringBody (c :: acc) cs
  | [] => none
termination_by cs => cs.length

/-! ### Values -/

/-- The deepest nesting of arrays and objects. -/
def maxDepth : Nat := 127

/-- Takes a fixed word off the front of a text. -/
def word? (w : String) (cs : List Char) : Option (List Char) :=
  if w.toList.isPrefixOf cs then some (cs.drop w.length) else none

mutual

/-- A value at the front of a text, `depth` levels deep.  `fuel` bounds the calls: no text
needs more than two for each of its characters. -/
def value (fuel depth : Nat) (cs : List Char) : Option (Value × List Char) :=
  match fuel with
  | 0 => none
  | fuel + 1 =>
    match skipSpace cs with
    | '"' :: cs => (stringBody [] cs).map fun (s, rest) => (.string s, rest)
    | '[' :: cs =>
      if maxDepth ≤ depth then none
      else match skipSpace cs with
        | ']' :: rest => some (.array [], rest)
        | _ => (items fuel (depth + 1) [] cs).map fun (vs, rest) => (.array vs, rest)
    | '\x7b' :: cs =>
      if maxDepth ≤ depth then none
      else match skipSpace cs with
        | '\x7d' :: rest => some (.object [], rest)
        | _ => (fields fuel (depth + 1) [] cs).map fun (o, rest) => (.object o, rest)
    | 'n' :: cs => (word? "ull" cs).map fun rest => (.null, rest)
    | 't' :: cs => (word? "rue" cs).map fun rest => (.bool true, rest)
    | 'f' :: cs => (word? "alse" cs).map fun rest => (.bool false, rest)
    | cs => (number cs).map fun (n, rest) => (.number n, rest)

/-- The items of an array up to its closing bracket, after those of `acc` in reverse. -/
def items (fuel depth : Nat) (acc : List Value) (cs : List Char) :
    Option (List Value × List Char) :=
  match fuel with
  | 0 => none
  | fuel + 1 => do
    let (v, rest) ← value fuel depth cs
    match skipSpace rest with
    | ',' :: rest => items fuel depth (v :: acc) rest
    | ']' :: rest => some ((v :: acc).reverse, rest)
    | _ => none

/-- The fields of an object up to its closing brace, put into `acc`. -/
def fields (fuel depth : Nat) (acc : Object) (cs : List Char) :
    Option (Object × List Char) :=
  match fuel with
  | 0 => none
  | fuel + 1 =>
    match skipSpace cs with
    | '"' :: cs => do
      let (k, rest) ← stringBody [] cs
      match skipSpace rest with
      | ':' :: rest =>
        let (v, rest) ← value fuel depth rest
        let acc := Object.insert k v acc
        match skipSpace rest with
        | ',' :: rest => fields fuel depth acc rest
        | '\x7d' :: rest => some (acc, rest)
        | _ => none
      | _ => none
    | _ => none

end

end LiveSwitch.Json.Reader

namespace LiveSwitch.Json.Value

/-- Reads a text that holds one value and nothing else. -/
def ofText? (s : String) : Option Value := do
  let cs := s.toList
  let (v, rest) ← Reader.value (2 * cs.length + 2) 0 cs
  if (Reader.skipSpace rest).isEmpty then some v else none

/-- Reads bytes that are the UTF-8 of one value and nothing else. -/
def ofBytes? (bytes : ByteArray) : Option Value :=
  (String.fromUTF8? bytes).bind ofText?

end LiveSwitch.Json.Value
