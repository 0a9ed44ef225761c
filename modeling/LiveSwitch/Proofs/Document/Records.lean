import LiveSwitch.Proofs.Document.Fields

/-!
# Records read back

A record that was read and is written again is the same record, as long as its ids are valid.
What else a record needs to be read back is what reading it ensured in the first place.

## Main definitions

* `ArrayRecord.Encodable`, `CalculationRecord.Encodable`, … — what reading a record ensures.

## Main results

* `ArrayRecord.decode_encode`, … — a record with valid ids is read back.
* `ArrayRecord.encodable_of_decode`, … — a record that was read can be written and read back.
* `ArrayRecord.validId_of_decode_encode`, … — a record that is read back has a valid id.
-/

namespace LiveSwitch

open Json Decode Record

/-! ### Register arrays -/

namespace ArrayRecord

/-- The known fields besides the identity. -/
def keys : List String := ["size", "bitwidth"]

/-- The known fields as they are written. -/
def fields (r : ArrayRecord) : List (String × Value) :=
  [("size", .ofNat r.size), ("bitwidth", .ofNat r.bitwidth)]

/-- The object of a record. -/
def toObject (r : ArrayRecord) : Object := Record.toObject r.identity r.fields r.extra

/-- A record that can be written and read back, its id aside. -/
structure Encodable (r : ArrayRecord) : Prop where
  record : Record.Encodable keys r.identity r.extra
  size : r.size < UInt64.size
  bitwidth : r.bitwidth < UInt32.size

theorem nodup_keys : (Identity.keys ++ keys).Nodup := by decide

variable {r : ArrayRecord}

theorem keys_fields (r : ArrayRecord) : (r.fields.map Prod.fst).Sublist keys :=
  List.Sublist.refl _

theorem get?_toObject {key : String} {v : Value} (h : (key, v) ∈ r.fields) :
    r.toObject.get? key = some v :=
  get?_fields nodup_keys r.keys_fields (List.mem_append_right _ h)

theorem decode_encode (h : r.Encodable) (hid : Identity.validId r.identity.id) :
    decode r.encode = some r := by
  have hidentity : Identity.decode r.toObject = some r.identity :=
    decode_fields nodup_keys r.keys_fields h.record hid
  have hsize : required r.toObject "size" (natBelow UInt64.size) = some r.size :=
    required_of_get? (get?_toObject (by simp [fields])) (natBelow_ofNat h.size)
  have hbitwidth : required r.toObject "bitwidth" (natBelow UInt32.size) = some r.bitwidth :=
    required_of_get? (get?_toObject (by simp [fields])) (natBelow_ofNat h.bitwidth)
  have hextra : Record.extra ["size", "bitwidth"] r.toObject = r.extra :=
    extra_fields r.keys_fields h.record.extra
  show decode (.object r.toObject) = some r
  simp [decode, Value.fields?, hidentity, hsize, hbitwidth, hextra]

/-- What is read was written in the fields of an object. -/
theorem decode_eq_some {v : Value} (h : decode v = some r) :
    ∃ o, v.fields? = some o ∧ Identity.decode o = some r.identity ∧
      required o "size" (natBelow UInt64.size) = some r.size ∧
      required o "bitwidth" (natBelow UInt32.size) = some r.bitwidth ∧
      r.extra = Record.extra keys o := by
  simp only [decode, Option.bind_eq_bind, Option.bind_eq_some_iff, Option.pure_def,
    Option.some.injEq] at h
  obtain ⟨o, ho, identity, hidentity, size, hsize, bitwidth, hbitwidth, rfl⟩ := h
  exact ⟨o, ho, hidentity, hsize, hbitwidth, rfl⟩

theorem encodable_of_decode {v : Value} (h : decode v = some r) : r.Encodable := by
  obtain ⟨o, -, hidentity, hsize, hbitwidth, hextra⟩ := decode_eq_some h
  obtain ⟨_, -, hsize⟩ := Option.bind_eq_some_iff.mp hsize
  obtain ⟨_, -, hbitwidth⟩ := Option.bind_eq_some_iff.mp hbitwidth
  exact ⟨hextra ▸ Record.encodable_of_decode hidentity, lt_of_natBelow hsize,
    lt_of_natBelow hbitwidth⟩

theorem validId_of_decode_encode {r' : ArrayRecord} (h : decode r.encode = some r') :
    Identity.validId r.identity.id := by
  obtain ⟨o, ho, hidentity, -⟩ := decode_eq_some h
  replace ho : some r.toObject = some o := ho
  cases ho
  exact validId_of_decode_fields nodup_keys r.keys_fields hidentity

end ArrayRecord

/-! ### Calculations -/

namespace CalculationRecord

/-- The known fields besides the identity. -/
def keys : List String := ["input", "algo"]

/-- The known fields as they are written. -/
def fields (r : CalculationRecord) : List (String × Value) :=
  [("input", .array r.input), ("algo", .string r.algorithm)]

/-- The object of a record. -/
def toObject (r : CalculationRecord) : Object := Record.toObject r.identity r.fields r.extra

/-- A record that can be written and read back, its id aside. -/
def Encodable (r : CalculationRecord) : Prop := Record.Encodable keys r.identity r.extra

theorem nodup_keys : (Identity.keys ++ keys).Nodup := by decide

variable {r : CalculationRecord}

theorem keys_fields (r : CalculationRecord) : (r.fields.map Prod.fst).Sublist keys :=
  List.Sublist.refl _

theorem get?_toObject {key : String} {v : Value} (h : (key, v) ∈ r.fields) :
    r.toObject.get? key = some v :=
  get?_fields nodup_keys r.keys_fields (List.mem_append_right _ h)

theorem decode_encode (h : r.Encodable) (hid : Identity.validId r.identity.id) :
    decode r.encode = some r := by
  have hidentity : Identity.decode r.toObject = some r.identity :=
    decode_fields nodup_keys r.keys_fields h hid
  have hinput : withDefault r.toObject "input" (listOf any) [] = some r.input :=
    withDefault_of_get? (get?_toObject (by simp [fields])) (listOf_any r.input) []
  have halgorithm : required r.toObject "algo" text = some r.algorithm :=
    required_of_get? (get?_toObject (by simp [fields])) (text_string r.algorithm)
  have hextra : Record.extra ["input", "algo"] r.toObject = r.extra :=
    extra_fields r.keys_fields h.extra
  show decode (.object r.toObject) = some r
  simp [decode, Value.fields?, hidentity, hinput, halgorithm, hextra]

/-- What is read was written in the fields of an object. -/
theorem decode_eq_some {v : Value} (h : decode v = some r) :
    ∃ o, v.fields? = some o ∧ Identity.decode o = some r.identity ∧
      r.extra = Record.extra keys o := by
  simp only [decode, Option.bind_eq_bind, Option.bind_eq_some_iff, Option.pure_def,
    Option.some.injEq] at h
  obtain ⟨o, ho, identity, hidentity, _, -, _, -, rfl⟩ := h
  exact ⟨o, ho, hidentity, rfl⟩

theorem encodable_of_decode {v : Value} (h : decode v = some r) : r.Encodable := by
  obtain ⟨o, -, hidentity, hextra⟩ := decode_eq_some h
  show Record.Encodable keys r.identity r.extra
  exact hextra ▸ Record.encodable_of_decode hidentity

theorem validId_of_decode_encode {r' : CalculationRecord} (h : decode r.encode = some r') :
    Identity.validId r.identity.id := by
  obtain ⟨o, ho, hidentity, -⟩ := decode_eq_some h
  replace ho : some r.toObject = some o := ho
  cases ho
  exact validId_of_decode_fields nodup_keys r.keys_fields hidentity

end CalculationRecord

/-! ### Actions -/

namespace Parameter

/-- A parameter that can be written and read back. -/
def Encodable (p : Parameter) : Prop := p.bitwidth < UInt32.size

theorem decode_encode {p : Parameter} (h : p.Encodable) : decode p.encode = some p := by
  let o : Object := [("bitwidth", .ofNat p.bitwidth), ("name", .string p.name)]
  have ho : positional ["name", "bitwidth"] p.encode = some o := rfl
  have hname : required o "name" text = some p.name := required_of_get? rfl (text_string p.name)
  have hbitwidth : required o "bitwidth" (natBelow UInt32.size) = some p.bitwidth :=
    required_of_get? rfl (natBelow_ofNat h)
  rw [decode, ho]
  simp [hname, hbitwidth]

theorem encodable_of_decode {p : Parameter} {v : Value} (h : decode v = some p) :
    p.Encodable := by
  simp only [decode, Option.bind_eq_bind, Option.bind_eq_some_iff, Option.pure_def,
    Option.some.injEq] at h
  obtain ⟨o, -, name, -, bitwidth, hbitwidth, rfl⟩ := h
  obtain ⟨_, -, hbitwidth⟩ := Option.bind_eq_some_iff.mp hbitwidth
  exact lt_of_natBelow hbitwidth

end Parameter

namespace ActionRecord

/-- The known fields besides the identity. -/
def keys : List String := ["runtime_data", "primitives"]

/-- The known fields as they are written. -/
def fields (r : ActionRecord) : List (String × Value) :=
  [("runtime_data", .array (r.parameters.map Parameter.encode)),
    ("primitives", .array r.primitives)]

/-- The object of a record. -/
def toObject (r : ActionRecord) : Object := Record.toObject r.identity r.fields r.extra

/-- A record that can be written and read back, its id aside. -/
structure Encodable (r : ActionRecord) : Prop where
  record : Record.Encodable keys r.identity r.extra
  parameters : ∀ p ∈ r.parameters, p.Encodable

theorem nodup_keys : (Identity.keys ++ keys).Nodup := by decide

variable {r : ActionRecord}

theorem keys_fields (r : ActionRecord) : (r.fields.map Prod.fst).Sublist keys :=
  List.Sublist.refl _

theorem get?_toObject {key : String} {v : Value} (h : (key, v) ∈ r.fields) :
    r.toObject.get? key = some v :=
  get?_fields nodup_keys r.keys_fields (List.mem_append_right _ h)

theorem decode_encode (h : r.Encodable) (hid : Identity.validId r.identity.id) :
    decode r.encode = some r := by
  have hidentity : Identity.decode r.toObject = some r.identity :=
    decode_fields nodup_keys r.keys_fields h.record hid
  have hparameters : withDefault r.toObject "runtime_data" (listOf Parameter.decode) [] =
      some r.parameters :=
    withDefault_of_get? (get?_toObject (by simp [fields]))
      (listOf_map fun p hp => Parameter.decode_encode (h.parameters p hp)) []
  have hprimitives : withDefault r.toObject "primitives" (listOf any) [] = some r.primitives :=
    withDefault_of_get? (get?_toObject (by simp [fields])) (listOf_any r.primitives) []
  have hextra : Record.extra ["runtime_data", "primitives"] r.toObject = r.extra :=
    extra_fields r.keys_fields h.record.extra
  show decode (.object r.toObject) = some r
  simp [decode, Value.fields?, hidentity, hparameters, hprimitives, hextra]

/-- What is read was written in the fields of an object. -/
theorem decode_eq_some {v : Value} (h : decode v = some r) :
    ∃ o, v.fields? = some o ∧ Identity.decode o = some r.identity ∧
      withDefault o "runtime_data" (listOf Parameter.decode) [] = some r.parameters ∧
      r.extra = Record.extra keys o := by
  simp only [decode, Option.bind_eq_bind, Option.bind_eq_some_iff, Option.pure_def,
    Option.some.injEq] at h
  obtain ⟨o, ho, identity, hidentity, parameters, hparameters, _, -, rfl⟩ := h
  exact ⟨o, ho, hidentity, hparameters, rfl⟩

theorem encodable_of_decode {v : Value} (h : decode v = some r) : r.Encodable := by
  obtain ⟨o, -, hidentity, hparameters, hextra⟩ := decode_eq_some h
  refine ⟨hextra ▸ Record.encodable_of_decode hidentity, ?_⟩
  refine forall_of_withDefault (P := fun l : List Parameter => ∀ p ∈ l, p.Encodable)
    (by simp) ?_ hparameters
  intro v l hl p hp
  obtain ⟨w, hw⟩ := exists_of_listOf hl hp
  exact Parameter.encodable_of_decode hw

theorem validId_of_decode_encode {r' : ActionRecord} (h : decode r.encode = some r') :
    Identity.validId r.identity.id := by
  obtain ⟨o, ho, hidentity, -⟩ := decode_eq_some h
  replace ho : some r.toObject = some o := ho
  cases ho
  exact validId_of_decode_fields nodup_keys r.keys_fields hidentity

end ActionRecord

/-! ### Tables -/

namespace DefaultRecord

/-- The known fields. -/
def keys : List String := ["action_id", "action_data"]

/-- The known fields as they are written. -/
def fields (r : DefaultRecord) : List (String × Value) :=
  [("action_id", .ofInt r.actionId), ("action_data", .array (r.data.map .string))]

/-- A record that can be written and read back, the id of its action aside. -/
def Encodable (r : DefaultRecord) : Prop := Object.Free keys r.extra

variable {r : DefaultRecord}

theorem get?_insertAll {key : String} {v : Value} (h : (key, v) ∈ r.fields) :
    Object.get? (r.extra.insertAll r.fields) key = some v := by
  have hnodup : (r.fields.map Prod.fst).Nodup := (by decide : keys.Nodup)
  refine Object.get?_insertAll_of_mem h fun v' h' => ?_
  exact congrArg Prod.snd (List.inj_on_of_nodup_map hnodup h' h rfl)

theorem decode_encode (h : r.Encodable) (hid : Identity.validId r.actionId) :
    decode r.encode = some r := by
  have hid' : required (r.extra.insertAll r.fields) "action_id" Identity.decodeId =
      some r.actionId :=
    required_of_get? (get?_insertAll (by simp [fields])) (Identity.decodeId_ofInt hid)
  have hdata : withDefault (r.extra.insertAll r.fields) "action_data" (listOf text) [] =
      some r.data :=
    withDefault_of_get? (get?_insertAll (by simp [fields])) (listOf_text _) []
  have hextra : Object.without ["action_id", "action_data"] (r.extra.insertAll r.fields) =
      r.extra :=
    Object.without_insertAll (by simp [fields]) h
  show decode (.object (r.extra.insertAll r.fields)) = some r
  simp [decode, Value.fields?, hid', hdata, hextra]

theorem encodable_of_decode {v : Value} (h : decode v = some r) :
    r.Encodable ∧ Identity.validId r.actionId := by
  simp only [decode, Option.bind_eq_bind, Option.bind_eq_some_iff, Option.pure_def,
    Option.some.injEq] at h
  obtain ⟨o, -, id, hid, data, -, rfl⟩ := h
  obtain ⟨_, -, hid⟩ := Option.bind_eq_some_iff.mp hid
  exact ⟨Object.free_without _ o, (Identity.validId_of_decodeId hid).1⟩

end DefaultRecord

namespace TableRecord

/-- The known fields as they are written. -/
def fields (r : TableRecord) : List (String × Value) :=
  [("key", .array r.key), ("match_type", .string r.matchType),
    ("action_ids", .array (r.actionIds.map .ofInt)),
    ("actions", .array (r.actions.map .string)),
    ("base_default_next", textOrNull r.baseNext?),
    ("next_tables", .object r.nextTables)] ++
    (r.default?.map fun d => ("default_entry", d.encode)).toList

/-- The object of a record. -/
def toObject (r : TableRecord) : Object := Record.toObject r.identity r.fields r.extra

/-- A record that can be written and read back, its ids aside. -/
structure Encodable (r : TableRecord) : Prop where
  record : Record.Encodable keys r.identity r.extra
  default : ∀ d ∈ r.default?, d.Encodable

/-- A document can hold the ids of a table. -/
structure ValidIds (r : TableRecord) : Prop where
  own : Identity.validId r.identity.id
  actions : ∀ id ∈ r.actionIds, Identity.validId id
  default : ∀ d ∈ r.default?, Identity.validId d.actionId

theorem nodup_keys : (Identity.keys ++ keys).Nodup := by decide

variable {r : TableRecord}

theorem keys_fields (r : TableRecord) : (r.fields.map Prod.fst).Sublist keys := by
  unfold fields
  cases r.default? with
  | none => exact List.sublist_append_left _ ["default_entry"]
  | some d => exact List.Sublist.refl _

theorem get?_toObject {key : String} {v : Value} (h : (key, v) ∈ r.fields) :
    r.toObject.get? key = some v :=
  get?_fields nodup_keys r.keys_fields (List.mem_append_right _ h)

theorem optional_default (h : r.Encodable) (hids : r.ValidIds) :
    Decode.optional r.toObject "default_entry" DefaultRecord.decode = some r.default? := by
  cases hd : r.default? with
  | some d =>
    have hmem : ("default_entry", d.encode) ∈ r.fields := by simp [fields, hd]
    exact optional_of_get? (get?_toObject hmem) nofun
      (DefaultRecord.decode_encode (h.default d hd) (hids.default d hd))
  | none =>
    refine optional_of_none (get?_fields_eq_none h.record.extra (by simp [keys]) ?_)
    intro f hf heq
    have hmem : f.1 ∈ (r.identity.encode ++ r.fields).map Prod.fst := List.mem_map_of_mem hf
    rw [heq, List.map_append, List.mem_append] at hmem
    rcases hmem with hmem | hmem
    · exact absurd ((keys_encode r.identity).subset hmem) (by decide)
    · simp [fields, hd] at hmem

theorem decode_encode (h : r.Encodable) (hids : r.ValidIds) : decode r.encode = some r := by
  have hidentity : Identity.decode r.toObject = some r.identity :=
    decode_fields nodup_keys r.keys_fields h.record hids.own
  have hkey : withDefault r.toObject "key" (listOf any) [] = some r.key :=
    withDefault_of_get? (get?_toObject (by simp [fields])) (listOf_any r.key) []
  have hmatch : withDefault r.toObject "match_type" text "exact" = some r.matchType :=
    withDefault_of_get? (get?_toObject (by simp [fields])) (text_string r.matchType) _
  have hactionIds : withDefault r.toObject "action_ids" (listOf Identity.decodeId) [] =
      some r.actionIds :=
    withDefault_of_get? (get?_toObject (by simp [fields]))
      (listOf_map fun id hid => Identity.decodeId_ofInt (hids.actions id hid)) []
  have hactions : withDefault r.toObject "actions" (listOf text) [] = some r.actions :=
    withDefault_of_get? (get?_toObject (by simp [fields])) (listOf_text _) []
  have hbase : Decode.optional r.toObject "base_default_next" text = some r.baseNext? :=
    optional_text (get?_toObject (by simp [fields]))
  have hnext : withDefault r.toObject "next_tables" Decode.object [] = some r.nextTables :=
    withDefault_of_get? (get?_toObject (by simp [fields])) (object_object r.nextTables) _
  have hdefault := optional_default h hids
  have hextra : Record.extra keys r.toObject = r.extra :=
    extra_fields r.keys_fields h.record.extra
  show decode (.object r.toObject) = some r
  simp [decode, Value.fields?, hidentity, hkey, hmatch, hactionIds, hactions, hbase, hnext,
    hdefault, hextra]

/-- What is read was written in the fields of an object. -/
theorem decode_eq_some {v : Value} (h : decode v = some r) :
    ∃ o, v.fields? = some o ∧ Identity.decode o = some r.identity ∧
      Decode.optional o "default_entry" DefaultRecord.decode = some r.default? ∧
      r.extra = Record.extra keys o := by
  simp only [decode, Option.bind_eq_bind, Option.bind_eq_some_iff, Option.pure_def,
    Option.some.injEq] at h
  obtain ⟨o, ho, identity, hidentity, _, -, _, -, _, -, _, -, _, -, _, -, default?, hdefault,
    rfl⟩ := h
  exact ⟨o, ho, hidentity, hdefault, rfl⟩

theorem encodable_of_decode {v : Value} (h : decode v = some r) :
    r.Encodable ∧ ∀ d ∈ r.default?, Identity.validId d.actionId := by
  obtain ⟨o, -, hidentity, hdefault, hextra⟩ := decode_eq_some h
  have hd : ∀ d ∈ r.default?, d.Encodable ∧ Identity.validId d.actionId :=
    forall_of_optional (fun _ _ => DefaultRecord.encodable_of_decode) hdefault
  exact ⟨⟨hextra ▸ Record.encodable_of_decode hidentity, fun d hd' => (hd d hd').1⟩,
    fun d hd' => (hd d hd').2⟩

theorem validId_of_decode_encode {r' : TableRecord} (h : decode r.encode = some r') :
    Identity.validId r.identity.id := by
  obtain ⟨o, ho, hidentity, -⟩ := decode_eq_some h
  replace ho : some r.toObject = some o := ho
  cases ho
  exact validId_of_decode_fields nodup_keys r.keys_fields hidentity

end TableRecord

/-! ### Conditionals -/

namespace ConditionalRecord

/-- The known fields besides the identity. -/
def keys : List String := ["expression", "true_next", "false_next", "flex"]

/-- The known fields as they are written. -/
def fields (r : ConditionalRecord) : List (String × Value) :=
  [("expression", r.expression?.getD .null), ("true_next", textOrNull r.trueNext?),
    ("false_next", textOrNull r.falseNext?)] ++ if r.flex then [("flex", .bool true)] else []

/-- The object of a record. -/
def toObject (r : ConditionalRecord) : Object := Record.toObject r.identity r.fields r.extra

/-- A record that can be written and read back, its id aside. -/
structure Encodable (r : ConditionalRecord) : Prop where
  record : Record.Encodable keys r.identity r.extra
  expression : ∀ v ∈ r.expression?, v ≠ .null

theorem nodup_keys : (Identity.keys ++ keys).Nodup := by decide

variable {r : ConditionalRecord}

theorem keys_fields (r : ConditionalRecord) : (r.fields.map Prod.fst).Sublist keys := by
  unfold fields
  cases r.flex with
  | true => exact List.Sublist.refl _
  | false => exact List.sublist_append_left _ ["flex"]

theorem get?_toObject {key : String} {v : Value} (h : (key, v) ∈ r.fields) :
    r.toObject.get? key = some v :=
  get?_fields nodup_keys r.keys_fields (List.mem_append_right _ h)

theorem optional_expression (h : r.Encodable) :
    Decode.optional r.toObject "expression" any = some r.expression? := by
  have hget : r.toObject.get? "expression" = some (r.expression?.getD .null) :=
    get?_toObject (by simp [fields])
  cases hv : r.expression? with
  | some v =>
    rw [hv] at hget
    exact optional_of_get? hget (h.expression v hv) rfl
  | none =>
    rw [hv] at hget
    rw [Decode.optional, hget]
    rfl

theorem withDefault_flex (h : r.Encodable) :
    withDefault r.toObject "flex" truth false = some r.flex := by
  cases hflex : r.flex with
  | true =>
    have hmem : ("flex", Value.bool true) ∈ r.fields := by simp [fields, hflex]
    have htruth : truth (.bool true) = some true := rfl
    exact withDefault_of_get? (get?_toObject hmem) htruth false
  | false =>
    have hget : r.toObject.get? "flex" = none := by
      refine get?_fields_eq_none h.record.extra (by simp [keys]) ?_
      intro f hf heq
      have hmem : f.1 ∈ (r.identity.encode ++ r.fields).map Prod.fst := List.mem_map_of_mem hf
      rw [heq, List.map_append, List.mem_append] at hmem
      rcases hmem with hmem | hmem
      · exact absurd ((keys_encode r.identity).subset hmem) (by decide)
      · simp [fields, hflex] at hmem
    rw [withDefault, hget]

theorem decode_encode (h : r.Encodable) (hid : Identity.validId r.identity.id) :
    decode r.encode = some r := by
  have hidentity : Identity.decode r.toObject = some r.identity :=
    decode_fields nodup_keys r.keys_fields h.record hid
  have hexpression := optional_expression h
  have htrue : Decode.optional r.toObject "true_next" text = some r.trueNext? :=
    optional_text (get?_toObject (by simp [fields]))
  have hfalse : Decode.optional r.toObject "false_next" text = some r.falseNext? :=
    optional_text (get?_toObject (by simp [fields]))
  have hflex := withDefault_flex h
  have hextra : Record.extra ["expression", "true_next", "false_next", "flex"] r.toObject =
      r.extra :=
    extra_fields r.keys_fields h.record.extra
  show decode (.object r.toObject) = some r
  simp [decode, Value.fields?, hidentity, hexpression, htrue, hfalse, hflex, hextra]

/-- What is read was written in the fields of an object. -/
theorem decode_eq_some {v : Value} (h : decode v = some r) :
    ∃ o, v.fields? = some o ∧ Identity.decode o = some r.identity ∧
      Decode.optional o "expression" any = some r.expression? ∧
      r.extra = Record.extra keys o := by
  simp only [decode, Option.bind_eq_bind, Option.bind_eq_some_iff, Option.pure_def,
    Option.some.injEq] at h
  obtain ⟨o, ho, identity, hidentity, expression?, hexpression, _, -, _, -, _, -, rfl⟩ := h
  exact ⟨o, ho, hidentity, hexpression, rfl⟩

theorem encodable_of_decode {v : Value} (h : decode v = some r) : r.Encodable := by
  obtain ⟨o, -, hidentity, hexpression, hextra⟩ := decode_eq_some h
  refine ⟨hextra ▸ Record.encodable_of_decode hidentity, ?_⟩
  rintro w hw rfl
  -- a null expression is read as none
  unfold Decode.optional at hexpression
  split at hexpression
  case h_1 | h_2 =>
    rw [← Option.some.inj hexpression] at hw
    cases hw
  case h_3 u hu _ =>
    rw [← Option.some.inj hexpression] at hw
    exact hu (Option.some.inj hw)

theorem validId_of_decode_encode {r' : ConditionalRecord} (h : decode r.encode = some r') :
    Identity.validId r.identity.id := by
  obtain ⟨o, ho, hidentity, -⟩ := decode_eq_some h
  replace ho : some r.toObject = some o := ho
  cases ho
  exact validId_of_decode_fields nodup_keys r.keys_fields hidentity

end ConditionalRecord

/-! ### Pipelines -/

namespace PipelineRecord

/-- The known fields besides the identity. -/
def keys : List String := ["init_table", "tables", "conditionals"]

/-- The known fields as they are written. -/
def fields (r : PipelineRecord) : List (String × Value) :=
  [("init_table", textOrNull r.init?), ("tables", .array (r.tables.map (·.encode))),
    ("conditionals", .array (r.conditionals.map (·.encode)))]

/-- The object of a record. -/
def toObject (r : PipelineRecord) : Object := Record.toObject r.identity r.fields r.extra

/-- A record that can be written and read back, its ids aside. -/
structure Encodable (r : PipelineRecord) : Prop where
  record : Record.Encodable keys r.identity r.extra
  tables : ∀ t ∈ r.tables, t.Encodable
  conditionals : ∀ c ∈ r.conditionals, c.Encodable

/-- A document can hold the ids of a pipeline and its nodes. -/
structure ValidIds (r : PipelineRecord) : Prop where
  own : Identity.validId r.identity.id
  tables : ∀ t ∈ r.tables, t.ValidIds
  conditionals : ∀ c ∈ r.conditionals, Identity.validId c.identity.id

theorem nodup_keys : (Identity.keys ++ keys).Nodup := by decide

variable {r : PipelineRecord}

theorem keys_fields (r : PipelineRecord) : (r.fields.map Prod.fst).Sublist keys :=
  List.Sublist.refl _

theorem get?_toObject {key : String} {v : Value} (h : (key, v) ∈ r.fields) :
    r.toObject.get? key = some v :=
  get?_fields nodup_keys r.keys_fields (List.mem_append_right _ h)

theorem decode_encode (h : r.Encodable) (hids : r.ValidIds) : decode r.encode = some r := by
  have hidentity : Identity.decode r.toObject = some r.identity :=
    decode_fields nodup_keys r.keys_fields h.record hids.own
  have hinit : Decode.optional r.toObject "init_table" text = some r.init? :=
    optional_text (get?_toObject (by simp [fields]))
  have htables : withDefault r.toObject "tables" (listOf TableRecord.decode) [] =
      some r.tables :=
    withDefault_of_get? (get?_toObject (by simp [fields]))
      (listOf_map fun t ht => TableRecord.decode_encode (h.tables t ht) (hids.tables t ht)) []
  have hconditionals : withDefault r.toObject "conditionals" (listOf ConditionalRecord.decode) []
      = some r.conditionals :=
    withDefault_of_get? (get?_toObject (by simp [fields])) (listOf_map fun c hc =>
      ConditionalRecord.decode_encode (h.conditionals c hc) (hids.conditionals c hc)) []
  have hextra : Record.extra ["init_table", "tables", "conditionals"] r.toObject = r.extra :=
    extra_fields r.keys_fields h.record.extra
  show decode (.object r.toObject) = some r
  simp [decode, Value.fields?, hidentity, hinit, htables, hconditionals, hextra]

/-- What is read was written in the fields of an object. -/
theorem decode_eq_some {v : Value} (h : decode v = some r) :
    ∃ o, v.fields? = some o ∧ Identity.decode o = some r.identity ∧
      withDefault o "tables" (listOf TableRecord.decode) [] = some r.tables ∧
      withDefault o "conditionals" (listOf ConditionalRecord.decode) [] = some r.conditionals ∧
      r.extra = Record.extra keys o := by
  simp only [decode, Option.bind_eq_bind, Option.bind_eq_some_iff, Option.pure_def,
    Option.some.injEq] at h
  obtain ⟨o, ho, identity, hidentity, _, -, tables, htables, conditionals, hconditionals, rfl⟩ := h
  exact ⟨o, ho, hidentity, htables, hconditionals, rfl⟩

theorem encodable_of_decode {v : Value} (h : decode v = some r) :
    r.Encodable ∧ ∀ t ∈ r.tables, ∀ d ∈ t.default?, Identity.validId d.actionId := by
  obtain ⟨o, -, hidentity, htables, hconditionals, hextra⟩ := decode_eq_some h
  have ht : ∀ t ∈ r.tables, ∃ w, TableRecord.decode w = some t := by
    refine forall_of_withDefault
      (P := fun l : List TableRecord => ∀ t ∈ l, ∃ w, TableRecord.decode w = some t)
      (by simp) (fun v l hl t ht => exists_of_listOf hl ht) htables
  have hc : ∀ c ∈ r.conditionals, ∃ w, ConditionalRecord.decode w = some c := by
    refine forall_of_withDefault
      (P := fun l : List ConditionalRecord => ∀ c ∈ l, ∃ w, ConditionalRecord.decode w = some c)
      (by simp) (fun v l hl c hc => exists_of_listOf hl hc) hconditionals
  refine ⟨⟨hextra ▸ Record.encodable_of_decode hidentity, ?_, ?_⟩, ?_⟩
  · intro t htmem
    obtain ⟨w, hw⟩ := ht t htmem
    exact (TableRecord.encodable_of_decode hw).1
  · intro c hcmem
    obtain ⟨w, hw⟩ := hc c hcmem
    exact ConditionalRecord.encodable_of_decode hw
  · intro t htmem
    obtain ⟨w, hw⟩ := ht t htmem
    exact (TableRecord.encodable_of_decode hw).2

/-- The ids of a pipeline that is read back and of its nodes are valid. -/
theorem validIds_of_decode_encode {r' : PipelineRecord} (h : decode r.encode = some r') :
    Identity.validId r.identity.id ∧ (∀ t ∈ r.tables, Identity.validId t.identity.id) ∧
      ∀ c ∈ r.conditionals, Identity.validId c.identity.id := by
  obtain ⟨o, ho, hidentity, htables, hconditionals, -⟩ := decode_eq_some h
  replace ho : some r.toObject = some o := ho
  cases ho
  have htables' : r.toObject.get? "tables" = some (.array (r.tables.map (·.encode))) :=
    get?_toObject (by simp [fields])
  have hconditionals' :
      r.toObject.get? "conditionals" = some (.array (r.conditionals.map (·.encode))) :=
    get?_toObject (by simp [fields])
  rw [withDefault, htables'] at htables
  rw [withDefault, hconditionals'] at hconditionals
  refine ⟨validId_of_decode_fields nodup_keys r.keys_fields hidentity, ?_, ?_⟩
  · intro t ht
    obtain ⟨t', ht'⟩ := isSome_of_listOf_map htables ht
    exact TableRecord.validId_of_decode_encode ht'
  · intro c hc
    obtain ⟨c', hc'⟩ := isSome_of_listOf_map hconditionals hc
    exact ConditionalRecord.validId_of_decode_encode hc'

end PipelineRecord

end LiveSwitch
