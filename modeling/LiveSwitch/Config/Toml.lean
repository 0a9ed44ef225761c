import LiveSwitch.Text.Binary64

/-!
# Settings files

Settings are written in the line-oriented part of TOML: tables, keys with one scalar each,
comments and blank lines.  A key may be quoted or dotted.  No key and no table may be
defined twice, and a key that has a value is no table.

## Main definitions

* `Scalar` — the value of a key.
* `Settings` — the keys of a file with their values, and its tables.
* `Settings.ofText?` — the settings of a text.
-/

namespace LiveSwitch.Toml

/-- The value of a key. -/
inductive Scalar where
  | integer (value : Int)
  /-- A number with a fraction or an exponent; its value has no use. -/
  | real
  | truth (value : Bool)
  | text (value : String)
  deriving DecidableEq, Repr, Inhabited

/-- The path of a key or a table. -/
abbrev Path := List String

/-- The settings of a file. -/
structure Settings where
  /-- The keys with their values, by their full paths. -/
  values : List (Path × Scalar) := []
  /-- The tables that have a header. -/
  tables : List Path := []
  /-- The tables that dotted keys have brought about. -/
  implied : List Path := []
  /-- The arrays of tables. -/
  arrays : List Path := []
  deriving DecidableEq, Repr, Inhabited

/-! ### Scalars -/

/-- Digits with single underscores between them; the digits, if there is one. -/
def digitRun? (isDigit : Char → Bool) (cs : List Char) : Option (List Char) :=
  let rec check : Bool → List Char → Bool
    | afterDigit, [] => afterDigit
    | afterDigit, '_' :: cs => afterDigit && check false cs
    | _, c :: cs => isDigit c && check true cs
  if check false cs then some (cs.filter (· != '_')) else none

/-- The value of a digit in a base up to sixteen. -/
def digitValue (c : Char) : Nat :=
  if c.isDigit then c.toNat - '0'.toNat else c.toLower.toNat - 'a'.toNat + 10

/-- The value of digits in a base, read after those of `n`. -/
def valueAfter (base n : Nat) (ds : List Char) : Nat :=
  ds.foldl (fun n c => n * base + digitValue c) n

/-- The value of digits in a base. -/
def valueOf (base : Nat) (ds : List Char) : Nat := valueAfter base 0 ds

/-- An integer without sign in decimal digits: no zero ahead of other digits. -/
def decimal? (cs : List Char) : Option Nat := do
  let ds ← digitRun? Char.isDigit cs
  if 1 < ds.length && ds.head? == some '0' then none else some (valueOf 10 ds)

/-- An integer that fits in 128 bits, with a sign or without. -/
def inRange? (n : Int) : Option Int :=
  let half : Nat := 1 <<< 127
  if -(half : Int) ≤ n ∧ n < 2 * half then some n else none

/-- An integer: decimal with an optional sign, or hexadecimal, octal or binary. -/
def integer? (cs : List Char) : Option Int :=
  match cs with
  | '0' :: 'x' :: ds =>
    let isHex := fun (c : Char) => c.isDigit || ('a' ≤ c.toLower && c.toLower ≤ 'f')
    (digitRun? isHex ds).bind fun ds => inRange? (valueOf 16 ds)
  | '0' :: 'o' :: ds =>
    (digitRun? (fun c => '0' ≤ c && c ≤ '7') ds).bind fun ds => inRange? (valueOf 8 ds)
  | '0' :: 'b' :: ds =>
    (digitRun? (fun c => c == '0' || c == '1') ds).bind fun ds => inRange? (valueOf 2 ds)
  | '+' :: ds => (decimal? ds).bind fun n => inRange? n
  | '-' :: ds => (decimal? ds).bind fun n => inRange? (-(n : Int))
  | ds => (decimal? ds).bind fun n => inRange? n

/-- A text without a sign at its front. -/
def withoutSign : List Char → List Char
  | '+' :: cs => cs
  | '-' :: cs => cs
  | cs => cs

/-- Whether a character can stand in a run of decimal digits. -/
def isDigitMark (c : Char) : Bool := c.isDigit || c == '_'

/-- The digits of a fraction, none if there is no point, and what follows them. -/
def fraction? : List Char → Option (List Char × List Char)
  | '.' :: cs =>
    let ds := cs.takeWhile isDigitMark
    (digitRun? Char.isDigit ds).map fun digits => (digits, cs.drop ds.length)
  | cs => some ([], cs)

/-- The value of an exponent, zero if there is none. -/
def exponent? : List Char → Option Int
  | [] => some 0
  | c :: cs =>
    if c = 'e' ∨ c = 'E' then
      (digitRun? Char.isDigit (withoutSign cs)).map fun ds =>
        let n : Int := valueOf 10 ds
        if cs.head? = some '-' then -n else n
    else none

/-- Whether a text is a number with a fraction or an exponent that a binary64 can hold. -/
def isReal (cs : List Char) : Bool :=
  let body := withoutSign cs
  let fits : Option Bool := do
    let whole := body.takeWhile isDigitMark
    let n ← decimal? whole
    let tail := body.drop whole.length
    let (digits, rest) ← fraction? tail
    let e ← exponent? rest
    return !tail.isEmpty && !Binary64.isTooLarge (valueAfter 10 n digits) (e - digits.length)
  body == "inf".toList || body == "nan".toList || fits.getD false

/-- A scalar written without quotation marks. -/
def bareScalar? (cs : List Char) : Option Scalar :=
  if cs = "true".toList then some (.truth true)
  else if cs = "false".toList then some (.truth false)
  else match integer? cs with
    | some n => some (.integer n)
    | none => if isReal cs then some .real else none

/-! ### Strings -/

/-- Whether a character may stand in a string or a comment. -/
def isPrintable (c : Char) : Bool := c == '\t' || (32 ≤ c.toNat && c.toNat != 127)

/-- The character of `n` hexadecimal digits at the front of a text. -/
def unicode? (n : Nat) (cs : List Char) : Option (Char × List Char) :=
  let ds := cs.take n
  let isHex := fun (c : Char) => c.isDigit || ('a' ≤ c.toLower && c.toLower ≤ 'f')
  let v := valueOf 16 ds
  if ds.length = n && ds.all isHex && v.isValidChar then some (Char.ofNat v, cs.drop n)
  else none

/-- The rest of a string after its opening mark: its characters, after those of `acc` in
reverse, and what follows the closing mark. -/
def basicString (acc : List Char) : Nat → List Char → Option (String × List Char)
  | 0, _ => none
  | _ + 1, [] => none
  | _ + 1, '"' :: cs => some (String.ofList acc.reverse, cs)
  | fuel + 1, '\\' :: c :: cs =>
    match c with
    | '"' => basicString ('"' :: acc) fuel cs
    | '\\' => basicString ('\\' :: acc) fuel cs
    | 'b' => basicString (Char.ofNat 8 :: acc) fuel cs
    | 't' => basicString ('\t' :: acc) fuel cs
    | 'n' => basicString ('\n' :: acc) fuel cs
    | 'e' => basicString (Char.ofNat 27 :: acc) fuel cs
    | 'f' => basicString (Char.ofNat 12 :: acc) fuel cs
    | 'r' => basicString ('\r' :: acc) fuel cs
    | 'x' => (unicode? 2 cs).bind fun (u, cs) => basicString (u :: acc) fuel cs
    | 'u' => (unicode? 4 cs).bind fun (u, cs) => basicString (u :: acc) fuel cs
    | 'U' => (unicode? 8 cs).bind fun (u, cs) => basicString (u :: acc) fuel cs
    | _ => none
  | fuel + 1, c :: cs => if isPrintable c then basicString (c :: acc) fuel cs else none

/-- The rest of a string without escapes after its opening mark. -/
def literalString (cs : List Char) : Option (String × List Char) :=
  let body := cs.takeWhile (· != '\'')
  match cs.drop body.length with
  | _ :: rest => if body.all isPrintable then some (String.ofList body, rest) else none
  | [] => none

/-- A string in either kind of marks at the front of a text. -/
def quotedString? : List Char → Option (String × List Char)
  | '"' :: cs => basicString [] (cs.length + 1) cs
  | '\'' :: cs => literalString cs
  | _ => none

/-! ### Lines -/

/-- The text without leading spaces and tabs. -/
def skipBlanks (cs : List Char) : List Char := cs.dropWhile fun c => c == ' ' || c == '\t'

/-- Whether nothing but a comment is left of a line. -/
def isEnd (cs : List Char) : Bool :=
  match skipBlanks cs with
  | [] => true
  | '#' :: cs => cs.all isPrintable
  | _ => false

/-- One part of a key at the front of a text. -/
def keyPart? (cs : List Char) : Option (String × List Char) :=
  match quotedString? cs with
  | some found => some found
  | none =>
    let bare := cs.takeWhile fun c => c.isAlphanum || c == '_' || c == '-'
    if bare.isEmpty then none else some (String.ofList bare, cs.drop bare.length)

/-- The most parts one key can have. -/
def maxParts : Nat := 80

/-- A key of at most `n` parts at the front of a text, with points between them. -/
def parts? : Nat → List Char → Option (Path × List Char)
  | 0, _ => none
  | n + 1, cs => do
    let (part, rest) ← keyPart? (skipBlanks cs)
    match skipBlanks rest with
    | '.' :: rest =>
      let (parts, rest) ← parts? n rest
      return (part :: parts, rest)
    | rest => return ([part], rest)

/-- A key at the front of a text. -/
def key? (cs : List Char) : Option (Path × List Char) := parts? maxParts cs

/-- A scalar at the front of a text. -/
def scalar? (cs : List Char) : Option (Scalar × List Char) :=
  match quotedString? cs with
  | some (s, rest) => some (.text s, rest)
  | none =>
    let bare := cs.takeWhile fun c => c.isAlphanum || c == '_' || c == '-' || c == '+' || c == '.'
    (bareScalar? bare).map fun v => (v, cs.drop bare.length)

namespace Settings

/-- Whether a path has a value of its own or lies below one that has. -/
def isBelowValue (s : Settings) (p : Path) : Bool := s.values.any fun v => v.1.isPrefixOf p

/-- Whether a path is a table. -/
def isTable (s : Settings) (p : Path) : Bool :=
  s.values.any (fun v => p.isPrefixOf v.1) ||
    (s.tables ++ s.implied ++ s.arrays).any fun t => p.isPrefixOf t

/-- Sets the key `key` of the table `table`.  A dotted key leads through tables without a
header and ends in one that is new or came about by a dotted key. -/
def setValue? (s : Settings) (table key : Path) (v : Scalar) : Option Settings :=
  let path := table ++ key
  let inner := (List.range (key.length - 1)).map fun i => table ++ key.take (i + 1)
  let fresh := inner.filter fun p => !s.isTable p
  let last? := inner.getLast?
  if s.isBelowValue path || s.isTable path || inner.any s.tables.contains then none
  else if last?.any fun p => !fresh.contains p && !s.implied.contains p then none
  else some { s with values := (path, v) :: s.values, implied := fresh ++ s.implied }

/-- Opens a table. -/
def openTable? (s : Settings) (p : Path) : Option Settings :=
  if s.isBelowValue p || s.tables.contains p || s.implied.contains p || s.arrays.contains p
  then none
  else some { s with tables := p :: s.tables }

/-- Opens one more table of an array.  What the earlier ones hold is forgotten, as no key
below an array has a use. -/
def openItem? (s : Settings) (p : Path) : Option Settings :=
  if s.isBelowValue p || s.tables.contains p || s.implied.contains p then none
  else if !s.arrays.contains p && s.isTable p then none
  else
    let outside := fun (q : Path) => !p.isPrefixOf q
    some {
      values := s.values.filter fun v => outside v.1
      tables := s.tables.filter outside
      implied := s.implied.filter outside
      arrays := p :: s.arrays.filter outside }

/-- Reads one line, in the table that is open. -/
def line? (s : Settings) (current : Path) (cs : List Char) : Option (Settings × Path) := do
  match skipBlanks cs with
  | [] => return (s, current)
  | '#' :: cs => if isEnd ('#' :: cs) then return (s, current) else none
  | '[' :: '[' :: cs =>
    let (p, rest) ← key? cs
    match rest with
    | ']' :: ']' :: rest => if isEnd rest then return (← s.openItem? p, p) else none
    | _ => none
  | '[' :: cs =>
    let (p, rest) ← key? cs
    match rest with
    | ']' :: rest => if isEnd rest then return (← s.openTable? p, p) else none
    | _ => none
  | cs =>
    let (k, rest) ← key? cs
    match rest with
    | '=' :: rest =>
      let (v, rest) ← scalar? (skipBlanks rest)
      if isEnd rest then return (← s.setValue? current k v, current) else none
    | _ => none

/-- Reads lines in turn. -/
def lines? (s : Settings) (current : Path) : List (List Char) → Option Settings
  | [] => some s
  | cs :: rest => do
    let (s, current) ← s.line? current cs
    lines? s current rest

/-- The lines of a text, without their line ends. -/
def split : List Char → List (List Char)
  | [] => [[]]
  | '\r' :: '\n' :: cs => [] :: split cs
  | '\n' :: cs => [] :: split cs
  | c :: cs =>
    match split cs with
    | l :: ls => (c :: l) :: ls
    | [] => [[c]]

/-- The text without the byte order mark that may stand in front. -/
def withoutMark : List Char → List Char
  | '\uFEFF' :: cs => cs
  | cs => cs

/-- The settings of a text. -/
def ofText? (s : String) : Option Settings := lines? {} [] (split (withoutMark s.toList))

/-- The value of a key. -/
def get? (s : Settings) (p : Path) : Option Scalar := s.values.lookup p

end Settings

end LiveSwitch.Toml
