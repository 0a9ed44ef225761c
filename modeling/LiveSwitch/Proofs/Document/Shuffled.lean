import LiveSwitch.Proofs.Document.Assembling
import LiveSwitch.Proofs.Document.Records
import Mathlib.Data.List.Perm.Basic

/-!
# Documents that list their entries in another order

Two documents may list the same entries in different orders, in the sections of register arrays,
calculations, actions and pipelines, and the tables and conditionals of each pipeline.  What is
read from them are the same records in different orders.

## Main definitions

* `Shuffled` — a list in another order, with related items.
* `Value.ItemsShuffled`, `Value.FieldsRelated` — the same for the items of an array, and fields of
  an object that are related key by key.
* `PipelineRecord.EntryShuffled`, `Program.DocumentShuffled` — a pipeline and a document that list
  their entries in another order.

## Main results

* `Loader.recordsOf_shuffled` — the records of a section.
* `PipelineRecord.decode_shuffled` — the record of a pipeline.
-/

namespace LiveSwitch

open Json Json.Decode

/-! ### Lists -/

/-- A list has the items of another one in some order, each related to its counterpart. -/
def Shuffled {α β : Type} (A : α → β → Prop) : List α → List β → Prop :=
  Relation.Comp List.Perm (List.Forall₂ A)

namespace Shuffled

variable {α β γ δ : Type} {A : α → β → Prop} {l : List α} {m : List β}

theorem of_perm {l l' : List α} (h : l.Perm l') : Shuffled Eq l l' :=
  ⟨l', h, List.forall₂_refl l'⟩

theorem perm {l l' : List α} (h : Shuffled Eq l l') : l.Perm l' := by
  obtain ⟨k, hperm, heq⟩ := h
  rw [List.forall₂_eq_eq_eq] at heq
  exact heq ▸ hperm

theorem flip (h : Shuffled A l m) : Shuffled (fun b a => A a b) m l := by
  obtain ⟨k, hperm, hrel⟩ := h
  rw [Shuffled, ← List.forall₂_comp_perm_eq_perm_comp_forall₂]
  exact ⟨k, hrel.flip, hperm.symm⟩

/-- Readings that succeed on related items succeed on shuffled lists. -/
theorem mapM {B : γ → δ → Prop} {d : α → Option γ} {d' : β → Option δ} (h : Shuffled A l m)
    (hd : ∀ {a b c}, A a b → d a = some c → ∃ c', d' b = some c' ∧ B c c') {k : List γ}
    (hk : l.mapM d = some k) : ∃ k', m.mapM d' = some k' ∧ Shuffled B k k' := by
  obtain ⟨l', hperm, hrel⟩ := h
  -- the items that are read are put in the new order first
  obtain ⟨k₁, hk₁, hperm'⟩ := List.perm_comp_forall₂ hperm.symm (mapM_some hk)
  suffices hread : ∃ k', m.mapM d' = some k' ∧ k₁.Forall₂ B k' by
    obtain ⟨k', hk', hB⟩ := hread
    exact ⟨k', hk', k₁, hperm'.symm, hB⟩
  clear hperm hperm' hk
  induction hrel generalizing k₁ with
  | nil =>
    cases hk₁
    exact ⟨[], rfl, .nil⟩
  | @cons a b l' m hab _ ih =>
    cases hk₁ with
    | cons hc hk₁ =>
      obtain ⟨c', hc', hB⟩ := hd hab hc
      obtain ⟨k', hk', hB'⟩ := ih _ hk₁
      exact ⟨c' :: k', by rw [List.mapM_cons, hc', hk']; rfl, .cons hB hB'⟩

end Shuffled

namespace Json.Value

/-! ### Values -/

/-- An array lists related items in another order; a value that is no array is the same. -/
inductive ItemsShuffled (A : Value → Value → Prop) : Value → Value → Prop
  | refl (v : Value) : ItemsShuffled A v v
  | array {l l' : List Value} (h : Shuffled A l l') : ItemsShuffled A (.array l) (.array l')

/-- An object has related values under its keys; a value that is no object is the same. -/
inductive FieldsRelated (A : String → Value → Value → Prop) : Value → Value → Prop
  | refl (v : Value) : FieldsRelated A v v
  | object {o o' : Object} (h : o.Forall₂ (fun x x' => x.1 = x'.1 ∧ A x.1 x.2 x'.2) o') :
    FieldsRelated A (.object o) (.object o')

theorem ItemsShuffled.symm {A : Value → Value → Prop} (hA : ∀ {v v'}, A v v' → A v' v)
    {v v' : Value} (h : ItemsShuffled A v v') : ItemsShuffled A v' v := by
  cases h with
  | refl => exact .refl v
  | array h =>
    obtain ⟨k, hperm, hrel⟩ := h.flip
    exact .array ⟨k, hperm, hrel.imp fun _ _ => hA⟩

theorem FieldsRelated.symm {A : String → Value → Value → Prop}
    (hA : ∀ {key v v'}, A key v v' → A key v' v) {v v' : Value} (h : FieldsRelated A v v') :
    FieldsRelated A v' v := by
  cases h with
  | refl => exact .refl v
  | object h =>
    refine .object (h.flip.imp fun x x' hx => ⟨hx.1.symm, ?_⟩)
    exact hx.1 ▸ hA hx.2

theorem FieldsRelated.exists_fields {A : String → Value → Value → Prop}
    (hA : ∀ key v, A key v v) {v v' : Value} (h : FieldsRelated A v v') {o : Object}
    (hv : v.fields? = some o) : ∃ o', v'.fields? = some o' ∧
      o.Forall₂ (fun x x' => x.1 = x'.1 ∧ A x.1 x.2 x'.2) o' := by
  cases h with
  | refl => exact ⟨o, hv, List.forall₂_same.mpr fun x _ => ⟨rfl, hA x.1 x.2⟩⟩
  | @object _ o' h =>
    cases hv
    exact ⟨o', rfl, h⟩

end Json.Value

namespace Json.Object

variable {A : String → Value → Value → Prop} {o o' : Object}

/-- Under a key, related objects have related values or none. -/
theorem rel_get? (h : o.Forall₂ (fun x x' => x.1 = x'.1 ∧ A x.1 x.2 x'.2) o') (key : String) :
    Option.Rel (A key) (o.get? key) (o'.get? key) := by
  induction h with
  | nil => exact .none
  | @cons x x' o o' hx _ ih =>
    obtain ⟨k, v⟩ := x
    obtain ⟨k', v'⟩ := x'
    obtain ⟨rfl, hA⟩ := hx
    rw [get?, get?, Assoc.lookup_cons_eq, Assoc.lookup_cons_eq]
    split
    case isTrue heq => exact heq ▸ .some hA
    case isFalse => exact ih

theorem get?_eq (h : o.Forall₂ (fun x x' => x.1 = x'.1 ∧ A x.1 x.2 x'.2) o') {key : String}
    (hA : ∀ {v v'}, A key v v' → v = v') : o.get? key = o'.get? key := by
  have hrel := rel_get? h key
  revert hrel
  generalize o.get? key = v?
  generalize o'.get? key = v'?
  rintro (hv | -)
  · exact congrArg some (hA hv)
  · rfl

/-- What is left without the keys that may differ is the same. -/
theorem without_eq (h : o.Forall₂ (fun x x' => x.1 = x'.1 ∧ A x.1 x.2 x'.2) o')
    {keys : List String} (hA : ∀ {key v v'}, key ∉ keys → A key v v' → v = v') :
    o.without keys = o'.without keys := by
  induction h with
  | nil => rfl
  | @cons x x' o o' hx _ ih =>
    obtain ⟨k, v⟩ := x
    obtain ⟨k', v'⟩ := x'
    obtain ⟨rfl, hv⟩ := hx
    unfold without at ih ⊢
    by_cases hk : k ∈ keys
    · rw [List.filter_cons_of_neg (by simpa using hk), List.filter_cons_of_neg (by simpa using hk)]
      exact ih
    · rw [List.filter_cons_of_pos (by simpa using hk), List.filter_cons_of_pos (by simpa using hk),
        ih]
      exact congrArg (fun w => (k, w) :: _) (hA hk hv)

end Json.Object

/-! ### Readings -/

section

variable {α : Type} {A : Value → Value → Prop} {B : α → α → Prop} {d : Decoder α}

/-- A list is read from shuffled items as the shuffled list. -/
theorem listOf_shuffled (hd : ∀ v v' r, A v v' → d v = some r → ∃ r', d v' = some r' ∧ B r r')
    (hrefl : ∀ r, B r r) {v v' : Value} (h : v.ItemsShuffled A v') {records : List α}
    (hv : listOf d v = some records) :
    ∃ records', listOf d v' = some records' ∧ Shuffled B records records' := by
  cases h with
  | refl => exact ⟨records, hv, records, .refl _, List.forall₂_same.mpr fun r _ => hrefl r⟩
  | array h => exact h.mapM (hd _ _ _) hv

end

namespace PipelineRecord

/-- The values under a key list the same entries in another order, if the key is one of nodes. -/
def FieldShuffled (key : String) : Value → Value → Prop :=
  if key ∈ ["tables", "conditionals"] then Value.ItemsShuffled Eq else Eq

/-- A pipeline lists its tables and its conditionals in another order. -/
def EntryShuffled : Value → Value → Prop := Value.FieldsRelated FieldShuffled

theorem eq_of_fieldShuffled {key : String} (hkey : key ∉ ["tables", "conditionals"])
    {v v' : Value} (h : FieldShuffled key v v') : v = v' := by
  rwa [FieldShuffled, if_neg hkey] at h

theorem withDefault_shuffled {α : Type} {d : Decoder α} {o o' : Object} {key : String}
    (h : Option.Rel (Value.ItemsShuffled Eq) (o.get? key) (o'.get? key)) {records : List α}
    (hv : withDefault o key (listOf d) [] = some records) :
    ∃ records', withDefault o' key (listOf d) [] = some records' ∧ records.Perm records' := by
  unfold withDefault at hv ⊢
  revert h hv
  generalize o.get? key = v?
  generalize o'.get? key = v'?
  rintro (hrel | -) hv
  · obtain ⟨records', hrecords', hB⟩ := listOf_shuffled (A := Eq) (B := Eq)
      (fun _ _ _ hA hr => ⟨_, hA ▸ hr, rfl⟩) (fun _ => rfl) hrel hv
    exact ⟨records', hrecords', hB.perm⟩
  · exact ⟨records, hv, .refl _⟩

/-- The record of a pipeline is read with its nodes in another order. -/
theorem decode_shuffled {v v' : Value} {r : PipelineRecord} (h : EntryShuffled v v')
    (hv : decode v = some r) : ∃ r', decode v' = some r' ∧ r.Shuffled r' := by
  cases h with
  | refl => exact ⟨r, hv, rfl, rfl, rfl, .refl _, .refl _⟩
  | @object o o' h =>
    -- all that is read under other keys is read from the same values
    have hsame : ∀ {key}, key ∉ ["tables", "conditionals"] → o.get? key = o'.get? key :=
      fun hkey => Object.get?_eq h (eq_of_fieldShuffled hkey)
    have hidentity : Identity.decode o = Identity.decode o' := by
      unfold Identity.decode required Decode.optional
      rw [hsame (by decide), hsame (by decide), hsame (by decide)]
    have hinit : Decode.optional o "init_table" text = Decode.optional o' "init_table" text := by
      unfold Decode.optional
      rw [hsame (by decide)]
    have hextra : Record.extra PipelineRecord.keys o = Record.extra PipelineRecord.keys o' := by
      refine Object.without_eq h fun hkey => eq_of_fieldShuffled fun hmem => hkey ?_
      exact List.mem_append_right _ (List.mem_cons_of_mem _ hmem)
    simp only [decode, Option.bind_eq_bind, Option.bind_eq_some_iff, Option.pure_def,
      Option.some.injEq] at hv
    obtain ⟨_, ⟨rfl⟩, identity, hi, init?, hn, tables, ht, conditionals, hc, rfl⟩ := hv
    obtain ⟨tables', ht', htables⟩ := withDefault_shuffled (Object.rel_get? h "tables") ht
    obtain ⟨conditionals', hc', hconditionals⟩ :=
      withDefault_shuffled (Object.rel_get? h "conditionals") hc
    rw [hidentity] at hi
    rw [hinit] at hn
    refine ⟨⟨identity, init?, tables', conditionals', Record.extra PipelineRecord.keys o'⟩, ?_,
      rfl, hextra.symm, rfl, htables, hconditionals⟩
    show decode (.object o') = _
    simp only [decode, Value.fields?, Option.bind_eq_bind, Option.bind_some, hi, hn, ht', hc',
      Option.pure_def]
    rfl

end PipelineRecord

/-! ### Documents -/

namespace Program

/-- The sections under a key list the same entries in another order; an entry of a pipeline may
itself list its nodes in another order. -/
def SectionShuffled (key : String) : Value → Value → Prop :=
  if key ∈ ["register_arrays", "calculations", "actions"] then Value.ItemsShuffled Eq
  else if key = "pipelines" then Value.ItemsShuffled PipelineRecord.EntryShuffled
  else Eq

/-- A document lists its register arrays, calculations, actions and pipelines in another order,
and so does each pipeline its nodes. -/
def DocumentShuffled : Value → Value → Prop := Value.FieldsRelated SectionShuffled

end Program

namespace Loader

variable {α : Type} {A : Value → Value → Prop} {B : α → α → Prop} {d : Decoder α}

/-- The records of a section in another order. -/
theorem recordsOf_shuffled
    (hd : ∀ v v' r, A v v' → d v = some r → ∃ r', d v' = some r' ∧ B r r')
    (hrefl : ∀ r, B r r) {root root' : Object} {key : String}
    (h : Option.Rel (Value.ItemsShuffled A) (root.get? key) (root'.get? key)) {records : List α}
    (hrecords : recordsOf root key d = .ok records) :
    ∃ records', recordsOf root' key d = .ok records' ∧ Shuffled B records records' := by
  have hsame : Shuffled B records records :=
    ⟨records, .refl _, List.forall₂_same.mpr fun r _ => hrefl r⟩
  unfold recordsOf at hrecords ⊢
  revert h hrecords
  generalize root.get? key = v?
  generalize root'.get? key = v'?
  rintro (hrel | -) hrecords
  · cases hrel with
    | refl v => exact ⟨records, hrecords, hsame⟩
    | @array l l' hl =>
      dsimp only at hrecords ⊢
      split at hrecords
      case h_1 heq =>
        cases hrecords
        obtain ⟨records', hrecords', hB⟩ := listOf_shuffled hd hrefl (.array hl) heq
        exact ⟨records', by rw [hrecords'], hB⟩
      case h_2 => cases hrecords
  · exact ⟨records, hrecords, hsame⟩

end Loader

end LiveSwitch
