import LiveSwitch.Json.Value

/-!
# Typed readings of JSON values

A section of a document is typed before anything in it is checked.  A reading either
gives the typed value or fails as a whole; why it fails is not recorded.

A record is written as an object.  Small records may also be written as an array of their
fields in a fixed order, from which fields at the end may be missing.

## Main definitions

* `Decoder` — a reading of one type, with `text`, `natBelow`, `intBetween`, `listOf`.
* `required`, `withDefault`, `optional` — a reading of one field of a record.
* `positional` — the fields of a record written as an object or as an array.
-/

namespace LiveSwitch.Json

/-- A reading of a value at a type. -/
abbrev Decoder (α : Type) := Value → Option α

namespace Decode

/-- Any value. -/
def any : Decoder Value := some

/-- A string. -/
def text : Decoder String := Value.string?

/-- A truth value. -/
def truth : Decoder Bool := Value.bool?

/-- An integer from zero to below `bound`. -/
def natBelow (bound : Nat) : Decoder Nat := fun v => v.natural?.filter (· < bound)

/-- An integer from `low` to below `high`. -/
def intBetween (low high : Int) : Decoder Int := fun v =>
  v.integer?.filter fun n => low ≤ n ∧ n < high

/-- An object. -/
def object : Decoder Object := Value.fields?

/-- An array whose items are all read by `d`. -/
def listOf {α : Type} (d : Decoder α) : Decoder (List α) := fun v =>
  v.items?.bind fun items => items.mapM d

/-- A field that has to be there. -/
def required {α : Type} (o : Object) (key : String) (d : Decoder α) : Option α :=
  (o.get? key).bind d

/-- A field that stands for `default` when it is absent. -/
def withDefault {α : Type} (o : Object) (key : String) (d : Decoder α) (default : α) :
    Option α :=
  match o.get? key with
  | none => some default
  | some v => d v

/-- A field that may be absent or null. -/
def optional {α : Type} (o : Object) (key : String) (d : Decoder α) : Option (Option α) :=
  match o.get? key with
  | none | some .null => some none
  | some v => (d v).map some

/-- The fields of a record that may also be written as an array: item by item, the fields
`keys`. -/
def positional (keys : List String) : Decoder Object
  | .object o => some o
  | .array items => if items.length ≤ keys.length then some (keys.zip items) else none
  | _ => none

end Decode

end LiveSwitch.Json
