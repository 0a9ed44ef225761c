import LiveSwitch.Action
import LiveSwitch.Calculation
import LiveSwitch.Document.Builder
import LiveSwitch.Proofs.Document.Fields
import LiveSwitch.Proofs.Json.Reading
import LiveSwitch.Proofs.Outcome
import LiveSwitch.Proofs.Text.Constants

/-!
# Documents that are built

A document that is put together entry by entry has in each section the entries that were added to
it, and every operand that was written is read as what it stands for.

## Main definitions

* `DocumentBuilder.pushAll` — a document from the list of its entries.
* `DocumentBuilder.ofSection` — the entries of one section.

## Main results

* `Operand.decode_field`, `Operand.decode_constant` — operands read back.
* `Primitive.decode_registerRead` and the like — primitives read back.
* `DocumentBuilder.get?_entriesOf` — what a section of a document holds.
* `DocumentBuilder.plain_pushAll` — a document that is built can be written as a text.
-/

namespace LiveSwitch

open Json

/-! ### Objects -/

/-- The last value of a key counts. -/
theorem Json.Object.get?_ofList_eq (fields : List (String × Value)) (key : String) :
    (ofList fields).get? key = fields.reverse.lookup key := by
  induction fields using List.reverseRecOn with
  | nil => rfl
  | append_singleton fields f ih =>
    obtain ⟨k, v⟩ := f
    rw [ofList, get?_insertAll_append, List.reverse_append, List.reverse_singleton,
      List.singleton_append, Assoc.lookup_cons_eq, ← ih]
    rfl

theorem field?_objectOf (fields : List (String × Value)) (key : String) :
    (objectOf fields).field? key = fields.reverse.lookup key :=
  Object.get?_ofList_eq fields key

/-! ### Operands -/

namespace Operand

@[simp] theorem field?_type_typed (type : String) (v : Value) :
    (typed type v).field? "type" = some (.string type) := by
  simp [typed, field?_objectOf, List.lookup_cons]

@[simp] theorem field?_value_typed (type : String) (v : Value) :
    (typed type v).field? "value" = some v := by
  simp [typed, field?_objectOf]

@[simp] theorem field?_op_primitive (op : String) (parameters : List Value) :
    (primitive op parameters).field? "op" = some (.string op) := by
  simp [primitive, field?_objectOf, List.lookup_cons]

@[simp] theorem field?_parameters_primitive (op : String) (parameters : List Value) :
    (primitive op parameters).field? "parameters" = some (.array parameters) := by
  simp [primitive, field?_objectOf]

/-- The full name of a field. -/
def fullName (header name : String) : String := s!"{header}.{name}"

theorem decode_field (header name : String) :
    Expr.decode (field header name) = .ok (.field (fullName header name)) := by
  rw [field, Expr.decode]
  simp [Value.string?, Expr.decodeLeaf, fieldName, fullName]
  rfl

theorem decode_constant (v : UInt64) : Expr.decode (constant v) = .ok (.const v) := by
  rw [constant, Expr.decode]
  simp [Value.string?, Expr.decodeLeaf, Constant.parse?_text]

end Operand

open Operand

/-! ### Primitives -/

namespace Primitive

namespace Source

variable {s : Source} {i : Nat} {v : Value}

theorem parameter_of_getElem? (h : s.parameters[i]? = some v) : s.parameter i = .ok v := by
  rw [parameter, h]

theorem field_field {header name : String}
    (h : s.parameters[i]? = some (Operand.field header name)) :
    s.field i = .ok (fullName header name) := by
  rw [field, parameter_of_getElem? h]
  show fieldName (((Operand.field header name).field? "value").getD .null) = _
  rw [Operand.field, field?_value_typed]
  rfl

theorem expr_of_decode {e : Expr} (h : s.parameters[i]? = some v) (he : Expr.decode v = .ok e) :
    s.expr i = .ok e := by
  rw [expr, parameter_of_getElem? h]
  exact he

theorem named_typed {k : ObjectKind} {name : String}
    (h : s.parameters[i]? = some (typed k.text (.string name))) :
    s.named i k = .ok name := by
  rw [named, parameter_of_getElem? h, ok_bind, field?_type_typed, field?_value_typed]
  exact if_pos rfl

end Source

variable {action : String} {index value base size : Value} {e e' : Expr}

theorem decode_registerRead (header name array : String) (h : Expr.decode index = .ok e) :
    decode action (primitive "register_read" [field header name, Operand.array array, index]) =
      .ok (.registerRead (fullName header name) array e) := by
  simp only [decode, field?_op_primitive, field?_parameters_primitive, Option.bind_some,
    Value.string?, Value.items?, Option.getD_some]
  rw [Source.field_field rfl, Source.named_typed (k := .registerArray) rfl,
    Source.expr_of_decode rfl h]
  rfl

theorem decode_registerWrite (array : String) (h : Expr.decode index = .ok e)
    (h' : Expr.decode value = .ok e') :
    decode action (primitive "register_write" [Operand.array array, index, value]) =
      .ok (.registerWrite array e e') := by
  simp only [decode, field?_op_primitive, field?_parameters_primitive, Option.bind_some,
    Value.string?, Value.items?, Option.getD_some]
  rw [Source.named_typed (k := .registerArray) rfl, Source.expr_of_decode rfl h,
    Source.expr_of_decode rfl h']
  rfl

theorem decode_add (header name : String) (h : Expr.decode value = .ok e) :
    decode action (primitive "add_to_field" [field header name, value]) =
      .ok (.add (fullName header name) e) := by
  simp only [decode, field?_op_primitive, field?_parameters_primitive, Option.bind_some,
    Value.string?, Value.items?, Option.getD_some]
  rw [Source.field_field rfl, Source.expr_of_decode rfl h]
  rfl

theorem decode_hashOffset (header name calculation : String) (h : Expr.decode base = .ok e)
    (h' : Expr.decode size = .ok e') :
    decode action (primitive "modify_field_with_hash_based_offset"
      [field header name, base, Operand.calculation calculation, size]) =
      .ok (.hashOffset (fullName header name) e calculation e') := by
  simp only [decode, field?_op_primitive, field?_parameters_primitive, Option.bind_some,
    Value.string?, Value.items?, Option.getD_some]
  rw [Source.field_field rfl, Source.expr_of_decode rfl h,
    Source.named_typed (k := .calculation) rfl, Source.expr_of_decode rfl h']
  rfl

end Primitive

/-! ### Sections -/

namespace DocumentBuilder

/-- The sections of a document under construction. -/
def sectionNames : List String :=
  ["header_types", "headers", "register_arrays", "calculations", "actions", "pipelines"]

/-- Adds entries to their sections in turn. -/
def pushAll (d : DocumentBuilder) (entries : List (String × Value)) : DocumentBuilder :=
  entries.foldl (fun d e => d.push e.1 e.2) d

/-- The entries of one section. -/
def ofSection (entries : List (String × Value)) (name : String) : List Value :=
  (entries.filter fun e => e.1 == name).map Prod.snd

/-- The entries of some sections, in order. -/
def entriesOf (sections : List (String × List Value)) : List (String × Value) :=
  sections.flatMap fun s => s.2.map (s.1, ·)

variable {d : DocumentBuilder} {entries : List (String × Value)}
  {sections : List (String × List Value)}

theorem ofSection_entriesOf_of_not_mem {name : String} (h : name ∉ sections.map Prod.fst) :
    ofSection (entriesOf sections) name = [] := by
  rw [ofSection, List.map_eq_nil_iff, List.filter_eq_nil_iff]
  intro e he heq
  obtain ⟨s, hs, he⟩ := List.mem_flatMap.mp he
  obtain ⟨v, -, rfl⟩ := List.mem_map.mp he
  exact h (List.mem_map.mpr ⟨s, hs, by simpa using heq⟩)

theorem ofSection_entriesOf (h : (sections.map Prod.fst).Nodup) {s : String × List Value}
    (hs : s ∈ sections) : ofSection (entriesOf sections) s.1 = s.2 := by
  induction sections with
  | nil => cases hs
  | cons t rest ih =>
    rw [List.map_cons, List.nodup_cons] at h
    have hcons : ofSection (entriesOf (t :: rest)) s.1 =
        ofSection (t.2.map (t.1, ·)) s.1 ++ ofSection (entriesOf rest) s.1 := by
      simp [ofSection, entriesOf]
    rcases List.mem_cons.mp hs with rfl | hs
    · rw [hcons, ofSection_entriesOf_of_not_mem h.1]
      simp [ofSection, List.filter_map, Function.comp_def]
    · have hne : t.1 ≠ s.1 := fun heq => h.1 (heq ▸ List.mem_map_of_mem hs)
      rw [hcons, ih h.2 hs]
      simp [ofSection, hne]

theorem ofSection_append_singleton (entries : List (String × Value)) (e : String × Value)
    (name : String) : ofSection (entries ++ [e]) name =
      if name = e.1 then ofSection entries name ++ [e.2] else ofSection entries name := by
  by_cases h : name = e.1
  · simp [ofSection, h]
  · simp [ofSection, h, Ne.symm h]

theorem get?_empty {name : String} (h : name ∈ sectionNames) :
    Object.get? empty.root name = some (.array []) := by
  revert h name
  show ∀ name ∈ sectionNames, Object.get? empty.root name = some (.array [])
  decide +kernel

theorem get?_push {name : String} {items : List Value}
    (h : Object.get? d.root name = some (.array items)) (entry : Value) (key : String) :
    Object.get? (d.push name entry).root key =
      if key = name then some (.array (items ++ [entry])) else Object.get? d.root key := by
  rw [push, h]
  exact Object.get?_insert ..

/-- Each section has the entries that were added to it, in order. -/
theorem get?_pushAll (hentries : ∀ e ∈ entries, e.1 ∈ sectionNames) {name : String}
    (hname : name ∈ sectionNames) :
    Object.get? (empty.pushAll entries).root name = some (.array (ofSection entries name)) := by
  induction entries using List.reverseRecOn generalizing name with
  | nil => exact get?_empty hname
  | append_singleton entries e ih =>
    have hmem := fun f hf => hentries f (List.mem_append_left _ hf)
    rw [pushAll, List.foldl_append, List.foldl_cons, List.foldl_nil, ← pushAll,
      get?_push (ih hmem (hentries e (by simp))), ofSection_append_singleton]
    by_cases h : name = e.1
    · rw [if_pos h, if_pos h, h]
    · rw [if_neg h, if_neg h, ih hmem hname]

theorem get?_entriesOf (h : sections.map Prod.fst = sectionNames) {s : String × List Value}
    (hs : s ∈ sections) :
    Object.get? (empty.pushAll (entriesOf sections)).root s.1 = some (.array s.2) := by
  have hnames : ∀ t ∈ sections, t.1 ∈ sectionNames := fun t ht => h ▸ List.mem_map_of_mem ht
  rw [get?_pushAll ?_ (hnames s hs), ofSection_entriesOf (by rw [h]; decide) hs]
  intro e he
  obtain ⟨t, ht, he⟩ := List.mem_flatMap.mp he
  obtain ⟨v, -, rfl⟩ := List.mem_map.mp he
  exact hnames t ht

end DocumentBuilder

/-! ### What can be written as a text -/

namespace Json.Value

theorem Plain.mono {d d' : Nat} {v : Value} (h : v.Plain d) (hd : d ≤ d') : v.Plain d' := by
  induction h generalizing d' with
  | null => exact .null
  | bool b => exact .bool b
  | integer hn => exact .integer hn
  | string s => exact .string s
  | array _ ih =>
    obtain ⟨d', rfl⟩ : ∃ k, d' = k + 1 := ⟨d' - 1, by omega⟩
    exact .array fun v hv => ih v hv (by omega)
  | object hsorted _ ih =>
    obtain ⟨d', rfl⟩ : ∃ k, d' = k + 1 := ⟨d' - 1, by omega⟩
    exact .object hsorted fun f hf => ih f hf (by omega)

variable {d : Nat}

theorem plain_ofInt {n : Int} (h : Reader.FitsWord n) : (ofInt n).Plain d := .integer h

theorem plain_ofNat {n : Nat} (h : n < 2 ^ 64) : (ofNat n).Plain d :=
  .integer ⟨by omega, by exact_mod_cast h⟩

theorem plain_objectOf {fields : List (String × Value)} (h : ∀ f ∈ fields, f.2.Plain d) :
    (objectOf fields).Plain (d + 1) :=
  .object (Object.sorted_ofList fields) fun f hf => h f (Object.mem_of_mem_ofList hf)

end Json.Value

open Json.Value

section

variable {d : Nat}

theorem Operand.plain_typed {type : String} {v : Value} (h : v.Plain d) :
    (typed type v).Plain (d + 1) := by
  refine plain_objectOf ?_
  simp only [List.forall_mem_cons]
  exact ⟨.string type, h, nofun⟩

theorem Operand.plain_field (header name : String) : (field header name).Plain 2 := by
  refine plain_typed (.array (d := 0) ?_)
  simp only [List.forall_mem_cons]
  exact ⟨.string header, .string name, nofun⟩

theorem Operand.plain_constant (v : UInt64) : (constant v).Plain 2 := plain_typed (.string _)

theorem Operand.plain_array (name : String) : (Operand.array name).Plain 2 :=
  plain_typed (.string name)

theorem Operand.plain_calculation (name : String) : (Operand.calculation name).Plain 2 :=
  plain_typed (.string name)

theorem Operand.plain_primitive {op : String} {parameters : List Value}
    (h : ∀ p ∈ parameters, p.Plain d) : (primitive op parameters).Plain (d + 2) := by
  refine plain_objectOf ?_
  simp only [List.forall_mem_cons]
  exact ⟨.string op, .array h, nofun⟩

end

namespace DocumentBuilder

variable {b : DocumentBuilder} {d : Nat}

theorem plain_empty : empty.document.Plain (d + 2) := by
  refine .object (Object.sorted_ofList _) fun f hf => ?_
  obtain ⟨key, -, rfl⟩ := List.mem_map.mp (Object.mem_of_mem_ofList hf)
  exact .array nofun

theorem plain_push (h : b.document.Plain (d + 2)) (name : String) {entry : Value}
    (hentry : entry.Plain d) : (b.push name entry).document.Plain (d + 2) := by
  cases h with
  | object hsorted hfields =>
    rw [push]
    split
    case h_1 items hitems =>
      have harray := hfields _ (Object.mem_of_get? hitems)
      refine .object (hsorted.insert _ _) fun f hf => ?_
      rcases Assoc.mem_insert hf with rfl | hf
      · cases harray with
        | array hall =>
          refine .array fun v hv => ?_
          rcases List.mem_append.mp hv with hv | hv
          · exact hall v hv
          · exact List.mem_singleton.mp hv ▸ hentry
      · exact hfields f hf
    case h_2 => exact .object hsorted hfields

theorem plain_pushAll {entries : List (String × Value)} (h : ∀ e ∈ entries, e.2.Plain d) :
    (empty.pushAll entries).document.Plain (d + 2) := by
  induction entries using List.reverseRecOn with
  | nil => exact plain_empty
  | append_singleton entries e ih =>
    rw [pushAll, List.foldl_append]
    exact plain_push (ih fun f hf => h f (List.mem_append_left _ hf)) e.1 (h e (by simp))

end DocumentBuilder

end LiveSwitch
