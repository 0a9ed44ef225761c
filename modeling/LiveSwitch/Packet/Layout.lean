import LiveSwitch.LoadError
import LiveSwitch.Packet.Basic

/-!
# Field widths

A document declares header types, each with its fields and their widths, and headers,
each of one type.  Together they give a width to every field of every header.  A value
written into a declared field keeps only as many bits as the field has; a field that is
not declared has 64.

## Main definitions

* `Layout` — the widths of the declared fields, with `width?` and `mask`.
* `Layout.ofSections` — the layout that two sections of a document declare.
-/

namespace LiveSwitch

open Json

/-- The widths of the declared fields, by their full names. -/
structure Layout where
  widths : List (String × Nat) := []
  deriving DecidableEq, Repr, Inhabited

namespace Layout

/-- The width of a declared field. -/
def width? (l : Layout) (field : String) : Option Nat := l.widths.lookup field

/-- The mask of a field: all ones in its width, or in 64 bits if it is not declared. -/
def mask (l : Layout) (field : String) : UInt64 := widthMask ((l.width? field).getD 64)

/-- Declares a field; a later declaration counts. -/
def declare (l : Layout) (field : String) (width : Nat) : Layout :=
  ⟨(field, width) :: l.widths⟩

/-- A header type: its name and the declarations of its fields. -/
structure HeaderType where
  name : String
  declarations : List Value

/-- Reads a header type. -/
def HeaderType.decode : Decoder HeaderType := fun v => do
  let o ← Decode.positional ["name", "fields"] v
  return {
    name := ← Decode.required o "name" Decode.text
    declarations := ← Decode.withDefault o "fields" (Decode.listOf Decode.any) [] }

/-- A header: its name and the name of its type. -/
structure Header where
  name : String
  typeName : String

/-- Reads a header. -/
def Header.decode : Decoder Header := fun v => do
  let o ← Decode.positional ["name", "header_type"] v
  return {
    name := ← Decode.required o "name" Decode.text
    typeName := ← Decode.required o "header_type" Decode.text }

/-- Reads a section that may be absent. -/
def decodeSection {α : Type} (sectionName : String) (d : Decoder α) (v? : Option Value) :
    Except LoadError (List α) :=
  match v? with
  | none => .ok []
  | some v =>
    match Decode.listOf d v with
    | some items => .ok items
    | none => .error (.illTyped sectionName)

/-- Reads the declaration of a field: its name and its width, from 1 to 64. -/
def fieldDeclaration (headerType : String) (v : Value) : Except LoadError (String × Nat) :=
  match (v.item? 0).bind Value.string?, (v.item? 1).bind Value.natural? with
  | some name, some width =>
    if 1 ≤ width ∧ width ≤ 64 then .ok (name, width)
    else .error (.badFieldDeclaration headerType v)
  | _, _ => .error (.badFieldDeclaration headerType v)

/-- The fields of every header type; of two types with one name the later counts. -/
def fieldsByType (types : List HeaderType) :
    Except LoadError (List (String × List (String × Nat))) :=
  types.foldlM (fun known t => do
    let fields ← t.declarations.mapM (fieldDeclaration t.name)
    return (t.name, fields) :: known) []

/-- Declares the fields of one header. -/
def declareHeader (types : List (String × List (String × Nat))) (l : Layout) (h : Header) :
    Except LoadError Layout :=
  match types.lookup h.typeName with
  | none => .error (.unknownHeaderType h.name h.typeName)
  | some fields => .ok (fields.foldl (fun l f => l.declare s!"{h.name}.{f.1}" f.2) l)

/-- The layout that the two header sections of a document declare. -/
def ofSections (headerTypes? headers? : Option Value) : Except LoadError Layout := do
  let types ← decodeSection "header_types" HeaderType.decode headerTypes?
  let headers ← decodeSection "headers" Header.decode headers?
  headers.foldlM (declareHeader (← fieldsByType types)) {}

end Layout

end LiveSwitch
