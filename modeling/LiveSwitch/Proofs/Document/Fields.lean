import LiveSwitch.Document.Record
import LiveSwitch.Proofs.Json.Objects
import Mathlib.Data.List.Nodup

/-!
# Fields read back

All records of a document share their outline: the fields of an identity, some known fields
and the unknown ones.  This file reads that outline back.  One thing can go wrong: an id that
was given out in the meantime may not fit the 32 bits that a document has for it.

## Main definitions

* `Identity.validId` — the ids that a document can hold.
* `Record.Encodable` — what reading a record ensures of its identity and unknown fields.
* `Record.toObject` — the object of a record.

## Main results

* `Record.decode_fields` — an identity with a valid id is read back.
* `Record.get?_fields`, `Record.extra_fields` — so are the known and the unknown fields.
* `Record.validId_of_decode_fields` — an identity that is read back has a valid id.
-/

namespace LiveSwitch

open Json Decode

/-! ### Values -/

namespace Json.Decode

theorem natBelow_ofNat {bound n : Nat} (h : n < bound) : natBelow bound (.ofNat n) = some n := by
  show (some n).filter (· < bound) = some n
  rw [Option.filter_some, if_pos (by simpa using h)]

theorem lt_of_natBelow {bound n : Nat} {v : Value} (h : natBelow bound v = some n) : n < bound := by
  simpa using (Option.filter_eq_some_iff.mp h).2

/-- A list is read back when each item is. -/
theorem listOf_map {α : Type} {d : Decoder α} {e : α → Value} {l : List α}
    (h : ∀ a ∈ l, d (e a) = some a) : listOf d (.array (l.map e)) = some l := by
  show (l.map e).mapM d = some l
  induction l with
  | nil => rfl
  | cons a l ih =>
    rw [List.map_cons, List.mapM_cons, h a List.mem_cons_self,
      ih fun b hb => h b (List.mem_cons_of_mem a hb)]
    rfl

theorem mapM_some {α β : Type} {f : α → Option β} {l : List α} {m : List β}
    (h : l.mapM f = some m) : List.Forall₂ (fun a b => f a = some b) l m := by
  induction l generalizing m with
  | nil =>
    cases h
    exact List.Forall₂.nil
  | cons a l ih =>
    rw [List.mapM_cons] at h
    obtain ⟨b, hb, h⟩ := Option.bind_eq_some_iff.mp h
    obtain ⟨bs, hbs, h⟩ := Option.bind_eq_some_iff.mp h
    cases h
    exact List.Forall₂.cons hb (ih hbs)

/-- Every item that was read comes from one that was written. -/
theorem exists_of_listOf {α : Type} {d : Decoder α} {v : Value} {l : List α}
    (h : listOf d v = some l) {a : α} (ha : a ∈ l) : ∃ w, d w = some a := by
  obtain ⟨items, -, hitems⟩ := Option.bind_eq_some_iff.mp h
  have hall := mapM_some hitems
  clear h hitems
  induction hall with
  | nil => cases ha
  | cons hd _ ih =>
    rcases List.mem_cons.mp ha with rfl | ha
    · exact ⟨_, hd⟩
    · exact ih ha

/-- Every item that was written is read. -/
theorem isSome_of_listOf_map {α β : Type} {d : Decoder α} {e : β → Value} {l : List β}
    {m : List α} (h : listOf d (.array (l.map e)) = some m) {b : β} (hb : b ∈ l) :
    ∃ a, d (e b) = some a := by
  replace h : (l.map e).mapM d = some m := h
  have hall := mapM_some h
  clear h
  induction l generalizing m with
  | nil => cases hb
  | cons c l ih =>
    rw [List.map_cons] at hall
    cases hall with
    | cons hd hall =>
      rcases List.mem_cons.mp hb with rfl | hb
      · exact ⟨_, hd⟩
      · exact ih hb hall

theorem text_string (s : String) : text (.string s) = some s := rfl

theorem object_object (o : Object) : Decode.object (.object o) = some o := rfl

theorem listOf_text (l : List String) : listOf text (.array (l.map .string)) = some l :=
  listOf_map fun s _ => text_string s

theorem listOf_any (l : List Value) : listOf any (.array l) = some l := by
  have h : listOf any (.array (l.map id)) = some l := listOf_map fun a _ => rfl
  rwa [List.map_id] at h

section

variable {α : Type} {o : Object} {key : String} {d : Decoder α} {v : Value} {a : α}

theorem required_of_get? (h : o.get? key = some v) (hd : d v = some a) :
    required o key d = some a := by
  rw [required, h, Option.bind_some, hd]

theorem withDefault_of_get? (h : o.get? key = some v) (hd : d v = some a) (default : α) :
    withDefault o key d default = some a := by
  rw [withDefault, h]
  exact hd

theorem optional_of_get? (h : o.get? key = some v) (hv : v ≠ .null) (hd : d v = some a) :
    Decode.optional o key d = some (some a) := by
  rw [Decode.optional, h]
  split
  case h_1 heq => cases heq
  case h_2 heq => exact absurd (Option.some.inj heq) hv
  case h_3 heq =>
    cases heq
    rw [hd, Option.map_some]

theorem optional_of_none (h : o.get? key = none) : Decode.optional o key d = some none := by
  rw [Decode.optional, h]

theorem forall_of_withDefault {P : α → Prop} {default : α} (hdefault : P default)
    (hd : ∀ v a, d v = some a → P a) (h : withDefault o key d default = some a) : P a := by
  unfold withDefault at h
  split at h
  case h_1 =>
    cases h
    exact hdefault
  case h_2 w _ => exact hd w a h

theorem forall_of_optional {P : α → Prop} {a? : Option α} (hd : ∀ v a, d v = some a → P a)
    (h : Decode.optional o key d = some a?) : ∀ a ∈ a?, P a := by
  rintro a ha
  unfold Decode.optional at h
  split at h
  case h_1 | h_2 =>
    cases h
    cases ha
  case h_3 w _ _ =>
    obtain ⟨b, hb, heq⟩ := Option.map_eq_some_iff.mp h
    rw [← heq] at ha
    cases ha
    exact hd w _ hb

end

theorem optional_text {o : Object} {key : String} {s? : Option String}
    (h : o.get? key = some (Record.textOrNull s?)) : Decode.optional o key text = some s? := by
  unfold Decode.optional
  rw [h]
  cases s? with
  | none => rfl
  | some s => rfl

end Json.Decode

/-! ### Identities -/

/-- The lines and columns that a document can hold. -/
def SourceInfo.Encodable (s : SourceInfo) : Prop := s.line < UInt32.size ∧ s.column < UInt32.size

theorem SourceInfo.decode_encode {s : SourceInfo} (h : s.Encodable) : decode s.encode = some s := by
  let o : Object := [("column", .ofNat s.column), ("filename", .string s.filename),
    ("line", .ofNat s.line), ("source_fragment", .string s.fragment)]
  have ho : positional ["filename", "line", "column", "source_fragment"] s.encode = some o := rfl
  have hfilename : withDefault o "filename" text "" = some s.filename :=
    withDefault_of_get? rfl (text_string s.filename) ""
  have hline : withDefault o "line" (natBelow UInt32.size) 0 = some s.line :=
    withDefault_of_get? rfl (natBelow_ofNat h.1) 0
  have hcolumn : withDefault o "column" (natBelow UInt32.size) 0 = some s.column :=
    withDefault_of_get? rfl (natBelow_ofNat h.2) 0
  have hfragment : withDefault o "source_fragment" text "" = some s.fragment :=
    withDefault_of_get? rfl (text_string s.fragment) ""
  rw [decode, ho]
  simp [hfilename, hline, hcolumn, hfragment]

theorem SourceInfo.encodable_of_decode {s : SourceInfo} {v : Value} (h : decode v = some s) :
    s.Encodable := by
  simp only [decode, Option.bind_eq_bind, Option.bind_eq_some_iff, Option.pure_def,
    Option.some.injEq] at h
  obtain ⟨o, -, filename, -, line, hline, column, hcolumn, fragment, -, rfl⟩ := h
  have hsmall : ∀ v n, natBelow UInt32.size v = some n → n < UInt32.size :=
    fun v n h => lt_of_natBelow h
  have hzero : 0 < UInt32.size := by decide
  exact ⟨forall_of_withDefault (P := (· < UInt32.size)) hzero hsmall hline,
    forall_of_withDefault (P := (· < UInt32.size)) hzero hsmall hcolumn⟩

namespace Identity

/-- The ids that a document can hold. -/
def validId (id : Int) : Prop := -0x80000000 ≤ id ∧ id < 0x80000000

instance (id : Int) : Decidable (validId id) := inferInstanceAs (Decidable (_ ∧ _))

/-- An identity that can be written and read back, its id aside. -/
def Encodable (i : Identity) : Prop := ∀ s ∈ i.source?, s.Encodable

theorem decodeId_ofInt {id : Int} (h : validId id) : decodeId (.ofInt id) = some id := by
  show (some id).filter (fun n => -0x80000000 ≤ n ∧ n < 0x80000000) = some id
  rw [Option.filter_some, if_pos (by simpa [validId] using h)]

theorem validId_of_decodeId {id : Int} {v : Value} (h : decodeId v = some id) :
    validId id ∧ v = .ofInt id := by
  obtain ⟨hv, hid⟩ := Option.filter_eq_some_iff.mp h
  refine ⟨by simpa [validId] using hid, ?_⟩
  unfold Value.integer? at hv
  split at hv
  case h_1 =>
    cases hv
    rfl
  case h_2 => cases hv

theorem decode_of_get? {o : Object} {i : Identity} (hname : o.get? "name" = some (.string i.name))
    (hid : o.get? "id" = some (.ofInt i.id))
    (hsource : o.get? "source_info" = i.source?.map SourceInfo.encode)
    (hvalid : validId i.id) (hi : i.Encodable) : decode o = some i := by
  obtain ⟨name, id, source?⟩ := i
  have hsource' : Decode.optional o "source_info" SourceInfo.decode = some source? := by
    unfold Decode.optional
    rw [hsource]
    cases source? with
    | none => rfl
    | some s =>
      have hs := SourceInfo.decode_encode (hi s rfl)
      show (SourceInfo.decode s.encode).map some = some (some s)
      rw [hs, Option.map_some]
  unfold decode required
  rw [hname, hid, hsource']
  simp [text, Value.string?, decodeId_ofInt hvalid]

/-- The place in the source text that is read. -/
theorem source_of_decode {o : Object} {i : Identity} (h : decode o = some i) :
    (o.get? "source_info").bind SourceInfo.decode = i.source? := by
  simp only [decode, Option.bind_eq_bind, Option.bind_eq_some_iff, Option.pure_def,
    Option.some.injEq] at h
  obtain ⟨name, -, id, -, source?, hsource, rfl⟩ := h
  unfold Decode.optional at hsource
  split at hsource
  case h_1 hget => rw [hget, ← Option.some.inj hsource, Option.bind_none]
  case h_2 hget =>
    rw [hget, ← Option.some.inj hsource]
    rfl
  case h_3 v _ hget =>
    obtain ⟨s, hs, heq⟩ := Option.map_eq_some_iff.mp hsource
    rw [hget, Option.bind_some, hs]
    exact heq

/-- The name that is read is written as a text. -/
theorem name_of_decode {o : Object} {i : Identity} (h : decode o = some i) :
    o.get? "name" = some (.string i.name) := by
  simp only [decode, Option.bind_eq_bind, Option.bind_eq_some_iff, Option.pure_def,
    Option.some.injEq] at h
  obtain ⟨name, hname, id, -, source?, -, rfl⟩ := h
  obtain ⟨v, hv, hname⟩ := Option.bind_eq_some_iff.mp hname
  rw [hv]
  unfold text Value.string? at hname
  split at hname
  case h_1 => exact congrArg (fun s => some (Value.string s)) (Option.some.inj hname)
  case h_2 => cases hname

theorem name_eq_of_decode {o : Object} {i : Identity} {name : String} (h : decode o = some i)
    (hname : o.get? "name" = some (.string name)) : i.name = name := by
  rw [name_of_decode h] at hname
  exact Value.string.inj (Option.some.inj hname)

/-- What reading an identity ensures. -/
theorem of_decode {o : Object} {i : Identity} (h : decode o = some i) :
    validId i.id ∧ i.Encodable ∧ o.get? "id" = some (.ofInt i.id) := by
  simp only [decode, Option.bind_eq_bind, Option.bind_eq_some_iff, Option.pure_def,
    Option.some.injEq] at h
  obtain ⟨name, -, id, hid, source?, hsource, rfl⟩ := h
  obtain ⟨v, hv, hid⟩ := Option.bind_eq_some_iff.mp hid
  obtain ⟨hvalid, rfl⟩ := validId_of_decodeId hid
  exact ⟨hvalid, forall_of_optional (fun _ _ => SourceInfo.encodable_of_decode) hsource, hv⟩

end Identity

/-! ### Fields of a record -/

namespace Record

/-- A record that can be written and read back, its ids and known fields aside. -/
structure Encodable (known : List String) (identity : Identity) (extra : Object) : Prop where
  identity : identity.Encodable
  extra : Object.Free (Identity.keys ++ known) extra

theorem encodable_of_decode {known : List String} {o : Object} {i : Identity}
    (h : Identity.decode o = some i) : Encodable known i (Record.extra known o) :=
  ⟨(Identity.of_decode h).2.1, Object.free_without _ o⟩

section

variable {known : List String} {identity : Identity} {fields : List (String × Value)}
  {extra : Object}

/-- The object of a record. -/
def toObject (identity : Identity) (fields : List (String × Value)) (extra : Object) : Object :=
  extra.insertAll (identity.encode ++ fields)

theorem keys_encode (identity : Identity) :
    (identity.encode.map Prod.fst).Sublist Identity.keys := by
  obtain ⟨name, id, source?⟩ := identity
  cases source? with
  | none => exact List.Sublist.cons_cons _ (List.Sublist.cons_cons _ (List.nil_sublist _))
  | some s => exact List.Sublist.refl _

/-- Each field of a record is written once. -/
theorem nodup_fields (hknown : (Identity.keys ++ known).Nodup)
    (hfields : (fields.map Prod.fst).Sublist known) :
    ((identity.encode ++ fields).map Prod.fst).Nodup := by
  rw [List.map_append]
  exact hknown.sublist ((keys_encode identity).append hfields)

/-- A look-up in the object of a record finds the field that was written. -/
theorem get?_fields (hknown : (Identity.keys ++ known).Nodup)
    (hfields : (fields.map Prod.fst).Sublist known) {key : String} {v : Value}
    (hmem : (key, v) ∈ identity.encode ++ fields) :
    (toObject identity fields extra).get? key = some v := by
  have hnodup : ((identity.encode ++ fields).map Prod.fst).Nodup := nodup_fields hknown hfields
  refine Object.get?_insertAll_of_mem hmem fun v' hmem' => ?_
  exact congrArg Prod.snd (List.inj_on_of_nodup_map hnodup hmem' hmem rfl)

/-- A look-up of a field that was not written finds nothing. -/
theorem get?_fields_eq_none (hextra : Object.Free (Identity.keys ++ known) extra) {key : String}
    (hkey : key ∈ Identity.keys ++ known) (h : ∀ f ∈ identity.encode ++ fields, f.1 ≠ key) :
    (toObject identity fields extra).get? key = none := by
  rw [toObject, Object.get?_insertAll_of_not_mem h]
  cases hv : Object.get? extra key with
  | none => rfl
  | some v => exact absurd hkey (hextra _ (Object.mem_of_get? hv))

/-- The place in the source text is written when there is one. -/
theorem get?_source (hknown : (Identity.keys ++ known).Nodup)
    (hfields : (fields.map Prod.fst).Sublist known)
    (hextra : Object.Free (Identity.keys ++ known) extra) :
    (toObject identity fields extra).get? "source_info" =
      identity.source?.map SourceInfo.encode := by
  cases hsource : identity.source? with
  | some s =>
    have hmem : ("source_info", s.encode) ∈ identity.encode := by simp [Identity.encode, hsource]
    exact get?_fields hknown hfields (List.mem_append_left _ hmem)
  | none =>
    refine get?_fields_eq_none hextra (by simp [Identity.keys]) ?_
    intro f hf heq
    rcases List.mem_append.mp hf with hf | hf
    · simp only [Identity.encode, hsource, Option.map_none, Option.toList_none, List.append_nil,
        List.mem_cons, List.not_mem_nil, or_false] at hf
      rcases hf with rfl | rfl
      · exact absurd (show "name" = "source_info" from heq) (by decide)
      · exact absurd (show "id" = "source_info" from heq) (by decide)
    · have hmem : f.1 ∈ known := hfields.subset (List.mem_map_of_mem hf)
      have hdisjoint := List.disjoint_of_nodup_append hknown
      exact hdisjoint (by rw [heq]; simp [Identity.keys]) hmem

theorem decode_fields (hknown : (Identity.keys ++ known).Nodup)
    (hfields : (fields.map Prod.fst).Sublist known) (h : Encodable known identity extra)
    (hid : Identity.validId identity.id) :
    Identity.decode (toObject identity fields extra) = some identity := by
  have hget : ∀ {key v}, (key, v) ∈ identity.encode →
      (toObject identity fields extra).get? key = some v :=
    fun hmem => get?_fields hknown hfields (List.mem_append_left _ hmem)
  exact Identity.decode_of_get? (hget (by simp [Identity.encode]))
    (hget (by simp [Identity.encode])) (get?_source hknown hfields h.extra) hid h.identity

theorem validId_of_decode_fields (hknown : (Identity.keys ++ known).Nodup)
    (hfields : (fields.map Prod.fst).Sublist known) {i : Identity}
    (h : Identity.decode (toObject identity fields extra) = some i) :
    Identity.validId identity.id := by
  obtain ⟨hvalid, -, hid⟩ := Identity.of_decode h
  have hmem : ("id", Value.ofInt identity.id) ∈ identity.encode ++ fields := by
    simp [Identity.encode]
  rw [get?_fields hknown hfields hmem] at hid
  injection hid with hid
  injection hid with hid
  injection hid with hid
  exact hid ▸ hvalid

/-- The unknown fields of a record are what they were. -/
theorem extra_fields (hfields : (fields.map Prod.fst).Sublist known)
    (hextra : Object.Free (Identity.keys ++ known) extra) :
    Record.extra known (toObject identity fields extra) = extra := by
  refine Object.without_insertAll ?_ hextra
  intro f hf
  rcases List.mem_append.mp hf with hf | hf
  · exact List.mem_append_left _ ((keys_encode identity).subset (List.mem_map_of_mem hf))
  · exact List.mem_append_right _ (hfields.subset (List.mem_map_of_mem hf))

end

end Record

end LiveSwitch
