import LiveSwitch.Proofs.Document.Loading
import LiveSwitch.Proofs.Document.Records
import LiveSwitch.Proofs.Program.Names

/-!
# What a document keeps of another one

A document that is written has entries of its own, but under keys that mean nothing here they have
what the entries of the document had that was read, and so they have under some other keys.  Two
documents are compared entry by entry: an entry stays, unless its object is gone.

## Main definitions

* `Json.Object.entries`, `Json.Object.Lists` — the entries under a key, of an object or of one of
  its pipelines.
* `Json.Object.KeptIn` — what an entry keeps of another one.
* `Json.Object.TableKept`, `NodesKept`, `DocumentKept` — the same of a table, of the nodes of a
  pipeline and of a whole document.

## Main results

* `Record.keptIn` — an entry that is written from a record keeps what the record was read from.
* `ArrayRecord.keptIn`, `CalculationRecord.keptIn`, `ActionRecord.keptIn`,
  `PipelineRecord.keptIn`, `ConditionalRecord.keptIn`, `TableRecord.tableKept` — the entries of
  each kind.
-/

namespace LiveSwitch

open Json Json.Decode

namespace Json.Object

/-- The objects that an object lists under a key. -/
def entries (o : Object) (key : String) : List Object :=
  (((o.get? key).bind Value.items?).getD []).filterMap Value.fields?

theorem mem_entries {o entry : Object} {key : String} : entry ∈ o.entries key ↔
    ∃ items, o.get? key = some (.array items) ∧ .object entry ∈ items := by
  rw [entries, List.mem_filterMap]
  constructor
  · rintro ⟨v, hv, hfields⟩
    cases hget : (o.get? key).bind Value.items? with
    | none =>
      rw [hget] at hv
      cases hv
    | some items =>
      rw [hget, Option.getD_some] at hv
      obtain ⟨w, hw, hitems⟩ := Option.bind_eq_some_iff.mp hget
      cases v with
      | object o' =>
        cases hfields
        cases w with
        | array items' =>
          cases hitems
          exact ⟨items, hw, hv⟩
        | _ => cases hitems
      | _ => cases hfields
  · rintro ⟨items, hget, hmem⟩
    refine ⟨.object entry, ?_, rfl⟩
    rw [hget]
    exact hmem

/-- A pipeline of a name lists an entry under a key. -/
def Lists (root : Object) (pipeline key : String) (entry : Object) : Prop :=
  ∃ p ∈ root.entries "pipelines", p.get? "name" = some (.string pipeline) ∧ entry ∈ p.entries key

/-- An entry has what another one had under every unknown key, it says the same about its place in
the source text, and it has what the other one had under some known keys. -/
structure KeptIn (known verbatim : List String) (o o' : Object) : Prop where
  unknown : ∀ key ∉ Identity.keys ++ known, o'.get? key = o.get? key
  source : (o'.get? "source_info").bind SourceInfo.decode =
    (o.get? "source_info").bind SourceInfo.decode
  verbatim : ∀ key ∈ verbatim, ∀ v, o.get? key = some v → o'.get? key = some v

/-- The entry of a table keeps its key and the unknown fields of its default entry. -/
structure TableKept (verbatim : List String) (o o' : Object) : Prop where
  fields : o.KeptIn TableRecord.keys ("key" :: verbatim) o'
  default : ∀ d : Object, o.get? "default_entry" = some (.object d) →
    ∃ d' : Object, o'.get? "default_entry" = some (.object d') ∧
      ∀ key ∉ DefaultRecord.keys, d'.get? key = d.get? key

/-- The entry of a conditional keeps its expression. -/
def ConditionalKept (verbatim : List String) (o o' : Object) : Prop :=
  o.KeptIn ConditionalRecord.keys ("expression" :: verbatim) o'

/-- A pipeline keeps its nodes, those aside whose names are gone. -/
structure NodesKept (gone : String → Prop) (p p' : Object) : Prop where
  table : ∀ t ∈ p.entries "tables", ∀ N, t.get? "name" = some (.string N) → ¬gone N →
    ∃ t' ∈ p'.entries "tables", t.TableKept ["name", "id"] t'
  conditional : ∀ c ∈ p.entries "conditionals", ∀ N, c.get? "name" = some (.string N) → ¬gone N →
    ∃ c' ∈ p'.entries "conditionals", c.ConditionalKept ["name", "id"] c'

/-- A document keeps the entries of another one, those aside that are gone, and the sections that
mean nothing here.  Of actions that is said under a condition. -/
structure DocumentKept (keepsActions : Prop) (gone : Subject → Prop) (root root' : Object) :
    Prop where
  sections : ∀ key ∉ Program.sectionKeys, root'.get? key = root.get? key
  array : ∀ a ∈ root.entries "register_arrays", ∀ N, a.get? "name" = some (.string N) →
    ¬gone (.array N) →
    ∃ a' ∈ root'.entries "register_arrays", a.KeptIn ArrayRecord.keys ["name", "id"] a'
  calculation : ∀ c ∈ root.entries "calculations", ∃ c' ∈ root'.entries "calculations",
    c.KeptIn CalculationRecord.keys ["name", "id", "input"] c'
  action : keepsActions → ∀ a ∈ root.entries "actions", ∃ a' ∈ root'.entries "actions",
    a.KeptIn ActionRecord.keys ["name", "id", "primitives"] a'
  pipeline : ∀ p ∈ root.entries "pipelines", ∃ p' ∈ root'.entries "pipelines",
    p.KeptIn PipelineRecord.keys ["name", "id"] p' ∧
      ∀ P, p.get? "name" = some (.string P) → p.NodesKept (fun N => gone (.node P N)) p'

end Json.Object

/-! ### Fields -/

namespace Json.Decode

theorem array_of_listOf_any {v : Value} {l : List Value} (h : listOf any v = some l) :
    v = .array l := by
  obtain ⟨items, hitems, hl⟩ := Option.bind_eq_some_iff.mp h
  have hany := listOf_any items
  rw [show listOf any (.array items) = items.mapM any from rfl, hl, Option.some.injEq] at hany
  unfold Value.items? at hitems
  split at hitems
  case h_1 =>
    cases hitems
    rw [hany]
  case h_2 => cases hitems

/-- A list of any values is written as it was read. -/
theorem get?_of_withDefault {o : Object} {key : String} {l : List Value}
    (h : withDefault o key (listOf any) [] = some l) {v : Value} (hv : o.get? key = some v) :
    v = .array l := by
  rw [withDefault, hv] at h
  exact array_of_listOf_any h

/-- Any value is written as it was read, null if it was null. -/
theorem get?_of_optional {o : Object} {key : String} {v? : Option Value}
    (h : Decode.optional o key any = some v?) {v : Value} (hv : o.get? key = some v) :
    v = v?.getD .null := by
  unfold Decode.optional at h
  split at h
  case h_1 hnone =>
    rw [hnone] at hv
    cases hv
  case h_2 hnull =>
    rw [hnull] at hv
    cases hv
    cases h
    rfl
  case h_3 w _ hw =>
    rw [hw] at hv
    cases hv
    cases h
    rfl

end Json.Decode

namespace Record

/-- An entry that is written from a record keeps what the record was read from: the place in the
source text and the unknown fields are the same, and verbatim are its name, its id if that is the
same, and known fields that were written as they were read. -/
theorem keptIn {known verbatim : List String} {o extra : Object} {i i' : Identity}
    {fields : List (String × Value)} (hknown : (Identity.keys ++ known).Nodup)
    (hfields : (fields.map Prod.fst).Sublist known) (hi : Identity.decode o = some i)
    (hextra : extra = Record.extra known o) (hname : i'.name = i.name)
    (hsource : i'.source? = i.source?)
    (hverbatim : ∀ key ∈ verbatim, ∀ v, o.get? key = some v →
      key = "name" ∨ (key = "id" ∧ i'.id = i.id) ∨ (key, v) ∈ fields) :
    o.KeptIn known verbatim (toObject i' fields extra) where
  unknown key hkey := by
    -- no field that is written has an unknown key
    rw [toObject, Object.get?_insertAll_of_not_mem, hextra, Record.extra, Object.get?_without hkey]
    intro f hf heq
    refine hkey (heq ▸ ?_)
    rcases List.mem_append.mp hf with hf | hf
    · exact List.mem_append_left _ ((keys_encode i').subset (List.mem_map_of_mem hf))
    · exact List.mem_append_right _ (hfields.subset (List.mem_map_of_mem hf))
  source := by
    have hencodable := (Identity.of_decode hi).2.1
    rw [get?_source hknown hfields (hextra ▸ Object.free_without _ o), hsource,
      Identity.source_of_decode hi]
    cases hs : i.source? with
    | none => rfl
    | some s => exact SourceInfo.decode_encode (hencodable s hs)
  verbatim key hkey v hv := by
    -- known fields are written under keys of their own, none over another
    have hget : ∀ {key v}, (key, v) ∈ i'.encode ++ fields →
        (toObject i' fields extra).get? key = some v := get?_fields hknown hfields
    rcases hverbatim key hkey v hv with rfl | ⟨rfl, hid⟩ | hmem
    · rw [Identity.name_of_decode hi] at hv
      rw [← hv, ← hname]
      exact hget (by simp [Identity.encode])
    · rw [(Identity.of_decode hi).2.2] at hv
      rw [← hv, ← hid]
      exact hget (by simp [Identity.encode])
    · exact hget (List.mem_append_right _ hmem)

/-- With the same identity also the name and the id are verbatim. -/
theorem keptIn_of_identity {known verbatim : List String} {o extra : Object} {i i' : Identity}
    {fields : List (String × Value)} (hknown : (Identity.keys ++ known).Nodup)
    (hfields : (fields.map Prod.fst).Sublist known) (hi : Identity.decode o = some i)
    (hextra : extra = Record.extra known o) (hidentity : i' = i)
    (hverbatim : ∀ key ∈ verbatim, ∀ v, o.get? key = some v → (key, v) ∈ fields) :
    o.KeptIn known ("name" :: "id" :: verbatim) (toObject i' fields extra) := by
  subst hidentity
  refine keptIn hknown hfields hi hextra rfl rfl fun key hkey v hv => ?_
  rcases List.mem_cons.mp hkey with rfl | hkey
  · exact Or.inl rfl
  rcases List.mem_cons.mp hkey with rfl | hkey
  · exact Or.inr (Or.inl ⟨rfl, rfl⟩)
  · exact Or.inr (Or.inr (hverbatim key hkey v hv))

end Record

/-! ### Records -/

section

variable {o : Object}

theorem ArrayRecord.keptIn {r r' : ArrayRecord} (h : decode (.object o) = some r)
    (hidentity : r'.identity = r.identity) (hextra : r'.extra = r.extra) :
    o.KeptIn keys ["name", "id"] r'.toObject := by
  obtain ⟨_, ⟨rfl⟩, hi, -, -, hx⟩ := decode_eq_some h
  exact Record.keptIn_of_identity nodup_keys r'.keys_fields hi (hextra.trans hx) hidentity
    (List.forall_mem_nil _)

theorem CalculationRecord.keptIn {r : CalculationRecord} (h : decode (.object o) = some r) :
    o.KeptIn keys ["name", "id", "input"] r.toObject := by
  obtain ⟨_, ⟨rfl⟩, hi, hx⟩ := decode_eq_some h
  refine Record.keptIn_of_identity nodup_keys r.keys_fields hi hx rfl ?_
  rw [List.forall_mem_singleton]
  intro v hv
  simp only [decode, Option.bind_eq_bind, Option.bind_eq_some_iff, Option.pure_def,
    Option.some.injEq] at h
  obtain ⟨_, ⟨rfl⟩, _, -, input, hinput, _, -, rfl⟩ := h
  rw [get?_of_withDefault hinput hv]
  simp [fields]

theorem ActionRecord.keptIn {r : ActionRecord} (h : decode (.object o) = some r) :
    o.KeptIn keys ["name", "id", "primitives"] r.toObject := by
  obtain ⟨_, ⟨rfl⟩, hi, -, hx⟩ := decode_eq_some h
  refine Record.keptIn_of_identity nodup_keys r.keys_fields hi hx rfl ?_
  rw [List.forall_mem_singleton]
  intro v hv
  simp only [decode, Option.bind_eq_bind, Option.bind_eq_some_iff, Option.pure_def,
    Option.some.injEq] at h
  obtain ⟨_, ⟨rfl⟩, _, -, _, -, primitives, hprimitives, rfl⟩ := h
  rw [get?_of_withDefault hprimitives hv]
  simp [fields]

theorem PipelineRecord.keptIn {r r' : PipelineRecord} (h : decode (.object o) = some r)
    (hidentity : r'.identity = r.identity) (hextra : r'.extra = r.extra) :
    o.KeptIn keys ["name", "id"] r'.toObject := by
  obtain ⟨_, ⟨rfl⟩, hi, -, -, hx⟩ := decode_eq_some h
  exact Record.keptIn_of_identity nodup_keys r'.keys_fields hi (hextra.trans hx) hidentity
    (List.forall_mem_nil _)

/-- The unknown fields of a default entry are written as they were read. -/
theorem DefaultRecord.get?_kept {r r' : DefaultRecord} (h : decode (.object o) = some r)
    (hextra : r'.extra = r.extra) {key : String} (hkey : key ∉ keys) :
    Object.get? (r'.extra.insertAll r'.fields) key = o.get? key := by
  simp only [decode, Option.bind_eq_bind, Option.bind_eq_some_iff, Option.pure_def,
    Option.some.injEq] at h
  obtain ⟨_, ⟨rfl⟩, id, -, data, -, rfl⟩ := h
  rw [Object.get?_insertAll_of_not_mem, hextra]
  · exact Object.get?_without hkey o
  · intro f hf heq
    refine hkey (heq ▸ ?_)
    rcases List.mem_pair.mp hf with rfl | rfl
    · exact List.mem_cons_self
    · exact List.mem_cons_of_mem _ List.mem_cons_self

theorem TableRecord.tableKept {r r' : TableRecord} {verbatim : List String}
    (h : decode (.object o) = some r) (hname : r'.identity.name = r.identity.name)
    (hsource : r'.identity.source? = r.identity.source?) (hkeys : r'.key = r.key)
    (hdefault : ∀ d ∈ r.default?, ∃ d' ∈ r'.default?, d'.extra = d.extra)
    (hextra : r'.extra = r.extra)
    (hverbatim : ∀ key ∈ verbatim, key = "name" ∨ key = "id" ∧ r'.identity.id = r.identity.id) :
    o.TableKept verbatim r'.toObject := by
  obtain ⟨_, ⟨rfl⟩, hi, hd, hx⟩ := decode_eq_some h
  constructor
  case fields =>
    refine Record.keptIn nodup_keys r'.keys_fields hi (hextra.trans hx) hname hsource ?_
    intro key hkey v hv
    rcases List.mem_cons.mp hkey with rfl | hkey
    · simp only [decode, Option.bind_eq_bind, Option.bind_eq_some_iff, Option.pure_def,
        Option.some.injEq] at h
      obtain ⟨_, ⟨rfl⟩, _, -, l, hl, _, -, _, -, _, -, _, -, _, -, _, -, rfl⟩ := h
      rw [get?_of_withDefault hl hv]
      exact Or.inr (Or.inr (by simp [fields, hkeys]))
    · exact (hverbatim key hkey).imp_right Or.inl
  case default =>
    intro d hget
    rw [Decode.optional, hget] at hd
    obtain ⟨dr, hdr, heq⟩ := Option.map_eq_some_iff.mp hd
    obtain ⟨dr', hdr', hdextra⟩ := hdefault dr heq.symm
    refine ⟨dr'.extra.insertAll dr'.fields, get?_toObject ?_,
      fun key hkey => DefaultRecord.get?_kept hdr hdextra hkey⟩
    rw [fields, show r'.default? = some dr' from hdr']
    exact List.mem_append_right _ List.mem_cons_self

theorem ConditionalRecord.conditionalKept {r r' : ConditionalRecord} {verbatim : List String}
    (h : decode (.object o) = some r) (hname : r'.identity.name = r.identity.name)
    (hsource : r'.identity.source? = r.identity.source?)
    (hexpression : r'.expression? = r.expression?) (hextra : r'.extra = r.extra)
    (hverbatim : ∀ key ∈ verbatim, key = "name" ∨ key = "id" ∧ r'.identity.id = r.identity.id) :
    o.ConditionalKept verbatim r'.toObject := by
  obtain ⟨_, ⟨rfl⟩, hi, he, hx⟩ := decode_eq_some h
  refine Record.keptIn nodup_keys r'.keys_fields hi (hextra.trans hx) hname hsource ?_
  intro key hkey v hv
  rcases List.mem_cons.mp hkey with rfl | hkey
  · rw [get?_of_optional he hv, ← hexpression]
    exact Or.inr (Or.inr (by simp [fields]))
  · exact (hverbatim key hkey).imp_right Or.inl

end

end LiveSwitch
