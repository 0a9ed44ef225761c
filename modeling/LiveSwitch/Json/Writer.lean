import LiveSwitch.Json.Value
import LiveSwitch.Text.Binary64

/-!
# JSON texts

Two layouts of a value: the compact one, without any space, stands inside error texts;
the pretty one, with one item a line and two spaces a level, is the layout of a document
that is written to a file.

## Main definitions

* `quoted` — a string between quotation marks.
* `Value.compact` — the compact text.
* `Value.pretty` — the pretty text.
-/

namespace LiveSwitch.Json

/-- The text of a number. -/
def Number.text : Number → String
  | .integer n => toString n
  | .real bits => Binary64.text bits

/-- The text of one character inside a string: a quotation mark, a backslash and the
control characters are escaped, everything else stands for itself. -/
def escaped (c : Char) : String :=
  if c = '"' then "\\\""
  else if c = '\\' then "\\\\"
  else if c = '\n' then "\\n"
  else if c = '\r' then "\\r"
  else if c = '\t' then "\\t"
  else if c.toNat = 8 then "\\b"
  else if c.toNat = 12 then "\\f"
  else if c.toNat < 32 then
    "\\u00" ++ String.ofList [Nat.digitChar (c.toNat / 16), Nat.digitChar (c.toNat % 16)]
  else String.singleton c

/-- A string between quotation marks. -/
def quoted (s : String) : String :=
  "\"" ++ String.join (s.toList.map escaped) ++ "\""

mutual

/-- The text of a value without any space. -/
def Value.compact : Value → String
  | .null => "null"
  | .bool b => if b then "true" else "false"
  | .number n => n.text
  | .string s => quoted s
  | .array items => "[" ++ ",".intercalate (Value.compactItems items) ++ "]"
  | .object fields => "\x7b" ++ ",".intercalate (Value.compactFields fields) ++ "\x7d"
termination_by structural v => v

/-- The compact texts of the items of an array. -/
def Value.compactItems : List Value → List String
  | [] => []
  | v :: vs => v.compact :: Value.compactItems vs
termination_by structural vs => vs

/-- The compact texts of the fields of an object. -/
def Value.compactFields : List (String × Value) → List String
  | [] => []
  | f :: fs => Value.compactField f :: Value.compactFields fs
termination_by structural fs => fs

/-- The compact text of one field. -/
def Value.compactField : String × Value → String
  | (k, v) => quoted k ++ ":" ++ v.compact
termination_by structural f => f

end

/-- The start of a line `depth` levels deep. -/
def newline (depth : Nat) : String := "\n" ++ String.ofList (List.replicate (2 * depth) ' ')

mutual

/-- The text of a value with one item a line, for a value `depth` levels deep. -/
def Value.prettyAt (depth : Nat) : Value → String
  | .array [] => "[]"
  | .array (v :: vs) =>
    let items := Value.prettyItems (depth + 1) (v :: vs)
    "[" ++ newline (depth + 1) ++ ("," ++ newline (depth + 1)).intercalate items ++
      newline depth ++ "]"
  | .object [] => "\x7b\x7d"
  | .object (f :: fs) =>
    let fields := Value.prettyFields (depth + 1) (f :: fs)
    "\x7b" ++ newline (depth + 1) ++ ("," ++ newline (depth + 1)).intercalate fields ++
      newline depth ++ "\x7d"
  | .null => "null"
  | .bool b => if b then "true" else "false"
  | .number n => n.text
  | .string s => quoted s
termination_by structural v => v

/-- The pretty texts of the items of an array. -/
def Value.prettyItems (depth : Nat) : List Value → List String
  | [] => []
  | v :: vs => Value.prettyAt depth v :: Value.prettyItems depth vs
termination_by structural vs => vs

/-- The pretty texts of the fields of an object. -/
def Value.prettyFields (depth : Nat) : List (String × Value) → List String
  | [] => []
  | f :: fs => Value.prettyField depth f :: Value.prettyFields depth fs
termination_by structural fs => fs

/-- The pretty text of one field. -/
def Value.prettyField (depth : Nat) : String × Value → String
  | (k, v) => quoted k ++ ": " ++ Value.prettyAt depth v
termination_by structural f => f

end

/-- The text of a value with one item a line. -/
def Value.pretty (v : Value) : String := v.prettyAt 0

end LiveSwitch.Json
