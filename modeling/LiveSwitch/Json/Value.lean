import LiveSwitch.Assoc

/-!
# JSON values

Documents are JSON values.  An integer that fits in 64 bits, signed or unsigned, is kept
exactly; every other number is a binary64 and is kept as its bits, so equality of values
is decidable and never depends on floating point.  The fields of an object are a list in
the order of their keys, each key once; the operations below keep it that way.

## Main definitions

* `Number`, `Value` — JSON numbers and values.
* `Object` — the fields of an object, with `get?`, `insert`, `erase`, `without` and
  `ofList`.
* `Value.field?`, `Value.item?` — one step into a value.

## Main results

* `Object.get?_insert`, `Object.get?_erase` — what a look-up finds after a change.
-/

namespace LiveSwitch.Json

/-- A JSON number. -/
inductive Number where
  /-- An integer between `-2^63` and `2^64 - 1`. -/
  | integer (value : Int)
  /-- Any other number, by the bits of its binary64. -/
  | real (bits : UInt64)
  deriving DecidableEq, Repr, Inhabited

/-- A JSON value. -/
inductive Value where
  | null
  | bool (b : Bool)
  | number (n : Number)
  | string (s : String)
  | array (items : List Value)
  | object (fields : List (String × Value))
  deriving Repr, Inhabited

/-! ### Equality -/

mutual

/-- Equality of values is decidable. -/
def Value.decEq : (a b : Value) → Decidable (a = b)
  | .null, .null => isTrue rfl
  | .bool a, .bool b => if h : a = b then isTrue (by rw [h]) else isFalse (by simp [h])
  | .number a, .number b => if h : a = b then isTrue (by rw [h]) else isFalse (by simp [h])
  | .string a, .string b => if h : a = b then isTrue (by rw [h]) else isFalse (by simp [h])
  | .array a, .array b =>
    match Value.decEqItems a b with
    | isTrue h => isTrue (by rw [h])
    | isFalse h => isFalse (by simp [h])
  | .object a, .object b =>
    match Value.decEqFields a b with
    | isTrue h => isTrue (by rw [h])
    | isFalse h => isFalse (by simp [h])
  | .null, .bool _ | .null, .number _ | .null, .string _ | .null, .array _
  | .null, .object _
  | .bool _, .null | .bool _, .number _ | .bool _, .string _ | .bool _, .array _
  | .bool _, .object _
  | .number _, .null | .number _, .bool _ | .number _, .string _ | .number _, .array _
  | .number _, .object _
  | .string _, .null | .string _, .bool _ | .string _, .number _ | .string _, .array _
  | .string _, .object _
  | .array _, .null | .array _, .bool _ | .array _, .number _ | .array _, .string _
  | .array _, .object _
  | .object _, .null | .object _, .bool _ | .object _, .number _ | .object _, .string _
  | .object _, .array _ => isFalse (by simp)
termination_by structural v => v

/-- Equality of the items of two arrays is decidable. -/
def Value.decEqItems : (a b : List Value) → Decidable (a = b)
  | [], [] => isTrue rfl
  | a :: as, b :: bs =>
    match a.decEq b, Value.decEqItems as bs with
    | isTrue h, isTrue h' => isTrue (by rw [h, h'])
    | isFalse h, _ => isFalse (by simp [h])
    | _, isFalse h => isFalse (by simp [h])
  | [], _ :: _ | _ :: _, [] => isFalse (by simp)
termination_by structural v => v

/-- Equality of the fields of two objects is decidable. -/
def Value.decEqFields : (a b : List (String × Value)) → Decidable (a = b)
  | [], [] => isTrue rfl
  | a :: as, b :: bs =>
    match Value.decEqField a b, Value.decEqFields as bs with
    | isTrue h, isTrue h' => isTrue (by rw [h, h'])
    | isFalse h, _ => isFalse (by simp [h])
    | _, isFalse h => isFalse (by simp [h])
  | [], _ :: _ | _ :: _, [] => isFalse (by simp)
termination_by structural v => v

/-- Equality of two fields is decidable. -/
def Value.decEqField : (a b : String × Value) → Decidable (a = b)
  | (k, v), (k', v') =>
    if h : k = k' then
      match v.decEq v' with
      | isTrue h' => isTrue (by rw [h, h'])
      | isFalse h' => isFalse (by simp [h'])
    else isFalse (by simp [h])
termination_by structural v => v

end

instance : DecidableEq Value := Value.decEq

/-! ### Objects -/

/-- The fields of an object, in the order of their keys. -/
abbrev Object := List (String × Value)

namespace Object

/-- The value of the field `key`. -/
def get? (o : Object) (key : String) : Option Value := o.lookup key

/-- Sets the field `key`, replacing an earlier value. -/
def insert (key : String) (value : Value) (o : Object) : Object := Assoc.insert key value o

/-- The object without the field `key`. -/
def erase (key : String) (o : Object) : Object := Assoc.erase key o

/-- The object without the fields named in `keys`. -/
def without (keys : List String) (o : Object) : Object :=
  o.filter fun f => !keys.contains f.1

/-- Sets the fields of a list in turn, so the last value of a key counts. -/
def insertAll (o : Object) (fields : List (String × Value)) : Object :=
  fields.foldl (fun o f => insert f.1 f.2 o) o

/-- The object with the fields of a list, the last value of a key counting. -/
def ofList (fields : List (String × Value)) : Object := insertAll [] fields

@[simp] theorem get?_nil (key : String) : get? [] key = none := rfl

/-- A look-up finds the value just set under its key, and otherwise what it found
before. -/
theorem get?_insert (o : Object) (k : String) (v : Value) (key : String) :
    get? (insert k v o) key = if key = k then some v else get? o key :=
  Assoc.lookup_insert k v o key

/-- A look-up finds nothing under a key that was taken out, and otherwise what it found
before. -/
theorem get?_erase (o : Object) (k key : String) :
    get? (erase k o) key = if key = k then none else get? o key :=
  Assoc.lookup_erase k o key

end Object

namespace Value

/-- The field `key` of an object; anything else has no fields. -/
def field? (key : String) : Value → Option Value
  | .object o => Object.get? o key
  | _ => none

/-- Item `i` of an array; anything else has no items. -/
def item? (i : Nat) : Value → Option Value
  | .array items => items[i]?
  | _ => none

/-- The text of a string. -/
def string? : Value → Option String
  | .string s => some s
  | _ => none

/-- The value of an integer that is not negative. -/
def natural? : Value → Option Nat
  | .number (.integer (.ofNat n)) => some n
  | _ => none

/-- The value of an integer. -/
def integer? : Value → Option Int
  | .number (.integer n) => some n
  | _ => none

/-- The value of a truth value. -/
def bool? : Value → Option Bool
  | .bool b => some b
  | _ => none

/-- The items of an array. -/
def items? : Value → Option (List Value)
  | .array items => some items
  | _ => none

/-- The fields of an object. -/
def fields? : Value → Option Object
  | .object o => some o
  | _ => none

/-- The number `n`. -/
def ofNat (n : Nat) : Value := .number (.integer n)

/-- The number `n`. -/
def ofInt (n : Int) : Value := .number (.integer n)

end Value

end LiveSwitch.Json
