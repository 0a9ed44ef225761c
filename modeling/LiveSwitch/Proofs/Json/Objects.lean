import LiveSwitch.Json.Value
import Mathlib.Data.List.Induction
import Mathlib.Data.String.Basic

/-!
# Objects put together and taken apart

A record is written by setting its known fields in an object of unknown ones, and read by
looking the known fields up and dropping them.  The two undo each other as long as the unknown
fields stay clear of the known names.  An object that is built from nothing is in the order of
its keys, so it is determined by its look-ups.

## Main definitions

* `Object.Free` — an object has none of some fields.
* `Object.Sorted` — an object is in the order of its keys, each key once.

## Main results

* `Object.without_insertAll` — dropping the fields that were set gives the object back.
* `Object.get?_insertAll_of_mem` — what a look-up finds once fields were set.
* `Object.eq_of_get?_eq` — sorted objects with the same look-ups are the same.
-/

namespace LiveSwitch

namespace Assoc

variable {κ α : Type} [BEq κ] [LT κ] [DecidableLT κ]

theorem mem_insert {k : κ} {v : α} {l : List (κ × α)} {x : κ × α} (h : x ∈ insert k v l) :
    x = (k, v) ∨ x ∈ l := by
  induction l with
  | nil => exact Or.inl (List.mem_singleton.mp h)
  | cons f l ih =>
    obtain ⟨k', v'⟩ := f
    rw [insert] at h
    split at h
    · rcases List.mem_cons.mp h with h | h
      · exact Or.inl h
      · exact Or.inr (List.mem_cons_of_mem _ h)
    · split at h
      · exact List.mem_cons.mp h
      · rcases List.mem_cons.mp h with h | h
        · exact Or.inr (h ▸ List.mem_cons_self)
        · rcases ih h with h | h
          · exact Or.inl h
          · exact Or.inr (List.mem_cons_of_mem _ h)

variable [LawfulBEq κ]

/-- Under a key that is not there yet, nothing is replaced. -/
theorem mem_insert_of_new {k : κ} {v : α} {l : List (κ × α)} (hk : ∀ x ∈ l, x.1 ≠ k)
    {x : κ × α} : x ∈ insert k v l ↔ x = (k, v) ∨ x ∈ l := by
  refine ⟨mem_insert, ?_⟩
  induction l with
  | nil => exact fun h => List.mem_singleton.mpr (h.resolve_right List.not_mem_nil)
  | cons f l ih =>
    obtain ⟨k', v'⟩ := f
    have hk' : k ≠ k' := Ne.symm (hk (k', v') List.mem_cons_self)
    rw [insert, if_neg (by simpa using hk')]
    intro h
    split
    · exact List.mem_cons.mpr h
    · rw [List.mem_cons] at h ⊢
      rcases h with h | h | h
      · exact Or.inr (ih (fun x hx => hk x (List.mem_cons_of_mem _ hx)) (Or.inl h))
      · exact Or.inl h
      · exact Or.inr (ih (fun x hx => hk x (List.mem_cons_of_mem _ hx)) (Or.inr h))

/-- A filter that drops a key does not see what is set under it. -/
theorem filter_insert {p : κ × α → Bool} {k : κ} (hp : ∀ v, p (k, v) = false) (v : α)
    (l : List (κ × α)) : (insert k v l).filter p = l.filter p := by
  induction l with
  | nil => simp [insert, hp]
  | cons f l ih =>
    obtain ⟨k', v'⟩ := f
    rw [insert]
    split
    case isTrue h =>
      have hk : k' = k := (beq_iff_eq.mp h).symm
      subst hk
      simp [hp]
    case isFalse =>
      split
      · simp [hp]
      · rw [List.filter_cons, List.filter_cons, ih]

section

variable {κ α : Type} [BEq κ] [LawfulBEq κ] [LinearOrder κ] {l : List (κ × α)}

/-- A map in the order of its keys stays so when the value of a key is set. -/
theorem sorted_insert (h : (l.map Prod.fst).Pairwise (· < ·)) (k : κ) (v : α) :
    ((insert k v l).map Prod.fst).Pairwise (· < ·) := by
  induction l with
  | nil => exact List.pairwise_singleton _ _
  | cons f l ih =>
    obtain ⟨k', v'⟩ := f
    have hcons := List.pairwise_cons.mp h
    -- the key is that of the first pair, belongs in front of it, or goes further on
    rw [insert]
    split
    case isTrue heq =>
      rw [beq_iff_eq.mp heq]
      exact h
    case isFalse hne =>
      split
      case isTrue hlt =>
        refine List.pairwise_cons.mpr ⟨?_, h⟩
        intro key hkey
        rcases List.mem_cons.mp hkey with rfl | hkey
        · exact hlt
        · exact lt_trans hlt (hcons.1 key hkey)
      case isFalse hge =>
        refine List.pairwise_cons.mpr ⟨?_, ih hcons.2⟩
        intro key hkey
        obtain ⟨x, hx, rfl⟩ := List.mem_map.mp hkey
        rcases mem_insert hx with rfl | hx
        · exact lt_of_le_of_ne (not_lt.mp hge) fun he => hne (beq_iff_eq.mpr he.symm)
        · exact hcons.1 x.1 (List.mem_map_of_mem hx)

/-- In a map in the order of its keys, every pair is found. -/
theorem lookup_of_mem (h : (l.map Prod.fst).Pairwise (· < ·)) {k : κ} {v : α}
    (hmem : (k, v) ∈ l) : l.lookup k = some v := by
  induction l with
  | nil => cases hmem
  | cons f l ih =>
    obtain ⟨k', v'⟩ := f
    have hcons := List.pairwise_cons.mp h
    rw [lookup_cons_eq]
    rcases List.mem_cons.mp hmem with heq | hmem
    · cases heq
      rw [if_pos rfl]
    · have hlt : k' < k := hcons.1 k (List.mem_map_of_mem hmem)
      rw [if_neg (ne_of_gt hlt)]
      exact ih hcons.2 hmem

end

/-- What is found in a map is in it. -/
theorem mem_of_lookup {κ α : Type} [BEq κ] [LawfulBEq κ] [DecidableEq κ] {l : List (κ × α)}
    {k : κ} {v : α} (h : l.lookup k = some v) : (k, v) ∈ l := by
  induction l with
  | nil => cases h
  | cons f l ih =>
    obtain ⟨k', v'⟩ := f
    rw [lookup_cons_eq] at h
    split at h
    case isTrue heq =>
      cases h
      rw [heq]
      exact List.mem_cons_self
    case isFalse => exact List.mem_cons_of_mem _ (ih h)

end Assoc

namespace Json.Object

/-! ### Known and unknown fields -/

/-- An object has none of some fields. -/
def Free (keys : List String) (o : Object) : Prop := ∀ f ∈ o, f.1 ∉ keys

theorem free_nil (keys : List String) : Free keys [] := fun _ h => by cases h

theorem free_without (keys : List String) (o : Object) : Free keys (o.without keys) := by
  intro f hf
  have hf' := (List.mem_filter.mp hf).2
  simpa using hf'

theorem without_eq_self {keys : List String} {o : Object} (h : Free keys o) :
    o.without keys = o := by
  refine List.filter_eq_self.mpr fun f hf => ?_
  simpa using h f hf

theorem without_insertAll_eq {keys : List String} {fields : List (String × Value)}
    (h : ∀ f ∈ fields, f.1 ∈ keys) (o : Object) :
    (o.insertAll fields).without keys = o.without keys := by
  induction fields generalizing o with
  | nil => rfl
  | cons f fields ih =>
    have hf : f.1 ∈ keys := h f List.mem_cons_self
    have hset : (o.insert f.1 f.2).without keys = o.without keys :=
      Assoc.filter_insert (fun v => by simpa using hf) f.2 o
    rw [← hset]
    exact ih (fun f' hf' => h f' (List.mem_cons_of_mem f hf')) (o.insert f.1 f.2)

theorem get?_without {keys : List String} {key : String} (hkey : key ∉ keys) (o : Object) :
    (o.without keys).get? key = o.get? key := by
  induction o with
  | nil => rfl
  | cons f o ih =>
    obtain ⟨k, v⟩ := f
    by_cases hk : k ∈ keys
    · have hne : key ≠ k := fun h => hkey (h ▸ hk)
      rw [without, List.filter_cons_of_neg (by simpa using hk), get?, get?, Assoc.lookup_cons_eq,
        if_neg hne]
      exact ih
    · rw [without, List.filter_cons_of_pos (by simpa using hk), get?, get?, Assoc.lookup_cons_eq,
        Assoc.lookup_cons_eq]
      split
      · rfl
      · exact ih

/-- Dropping the fields that were set gives the object back. -/
theorem without_insertAll {keys : List String} {fields : List (String × Value)} {o : Object}
    (h : ∀ f ∈ fields, f.1 ∈ keys) (ho : Free keys o) :
    (o.insertAll fields).without keys = o := by
  rw [without_insertAll_eq h, without_eq_self ho]

/-- A look-up finds the last value that was set under its key. -/
theorem get?_insertAll_append (o : Object) (fields : List (String × Value)) (f : String × Value)
    (key : String) : get? (o.insertAll (fields ++ [f])) key =
      if key = f.1 then some f.2 else get? (o.insertAll fields) key := by
  rw [insertAll, List.foldl_append]
  exact get?_insert _ f.1 f.2 key

theorem get?_insertAll_of_not_mem {o : Object} {fields : List (String × Value)} {key : String}
    (h : ∀ f ∈ fields, f.1 ≠ key) : get? (o.insertAll fields) key = get? o key := by
  induction fields generalizing o with
  | nil => rfl
  | cons f fields ih =>
    have hne : key ≠ f.1 := Ne.symm (h f List.mem_cons_self)
    have ih' := ih (o := o.insert f.1 f.2) fun f' hf' => h f' (List.mem_cons_of_mem f hf')
    rw [get?_insert, if_neg hne] at ih'
    exact ih'

/-- A look-up finds a value that was set, if it is the only one under its key. -/
theorem get?_insertAll_of_mem {o : Object} {fields : List (String × Value)} {key : String}
    {v : Value} (hmem : (key, v) ∈ fields) (honly : ∀ v', (key, v') ∈ fields → v' = v) :
    get? (o.insertAll fields) key = some v := by
  induction fields using List.reverseRecOn with
  | nil => cases hmem
  | append_singleton fields f ih =>
    obtain ⟨k, w⟩ := f
    rw [get?_insertAll_append]
    by_cases hk : key = k
    · subst hk
      rw [if_pos rfl, honly w (by simp)]
    · rw [if_neg hk]
      refine ih ?_ fun v' hv' => honly v' (List.mem_append_left _ hv')
      rcases List.mem_append.mp hmem with h | h
      · exact h
      · exact absurd (congrArg Prod.fst (List.mem_singleton.mp h)) hk

/-! ### Objects in the order of their keys -/

/-- An object is in the order of its keys, each key once. -/
def Sorted (o : Object) : Prop := (o.map Prod.fst).Pairwise (· < ·)

instance (o : Object) : Decidable o.Sorted := inferInstanceAs (Decidable (List.Pairwise _ _))

theorem Sorted.insert {o : Object} (h : o.Sorted) (k : String) (v : Value) :
    (Object.insert k v o).Sorted :=
  Assoc.sorted_insert h k v

theorem sorted_ofList (fields : List (String × Value)) : (ofList fields).Sorted := by
  induction fields using List.reverseRecOn with
  | nil => exact List.Pairwise.nil
  | append_singleton fields f ih =>
    rw [ofList, insertAll, List.foldl_append]
    exact ih.insert f.1 f.2

theorem mem_of_mem_ofList {fields : List (String × Value)} {f : String × Value}
    (h : f ∈ ofList fields) : f ∈ fields := by
  induction fields using List.reverseRecOn with
  | nil => cases h
  | append_singleton fields g ih =>
    rw [ofList, insertAll, List.foldl_append] at h
    rcases Assoc.mem_insert h with rfl | h
    · exact List.mem_append_right _ List.mem_cons_self
    · exact List.mem_append_left _ (ih h)

theorem Sorted.get?_of_mem {o : Object} (h : o.Sorted) {k : String} {v : Value}
    (hmem : (k, v) ∈ o) : o.get? k = some v :=
  Assoc.lookup_of_mem h hmem

theorem mem_of_get? {o : Object} {k : String} {v : Value} (h : o.get? k = some v) :
    (k, v) ∈ o :=
  Assoc.mem_of_lookup h

/-- Sorted objects with the same look-ups are the same. -/
theorem eq_of_get?_eq {o o' : Object} (h : o.Sorted) (h' : o'.Sorted)
    (heq : ∀ key, o.get? key = o'.get? key) : o = o' := by
  have hmem : ∀ f, f ∈ o ↔ f ∈ o' := by
    rintro ⟨k, v⟩
    constructor
    · intro hf
      exact mem_of_get? (heq k ▸ h.get?_of_mem hf)
    · intro hf
      exact mem_of_get? ((heq k).symm ▸ h'.get?_of_mem hf)
  have hlt : ∀ {l : Object}, l.Sorted → l.Pairwise fun f g => f.1 < g.1 :=
    fun hl => List.pairwise_map.mp hl
  have hnodup : ∀ {l : Object}, l.Sorted → l.Nodup :=
    fun hl => (hlt hl).imp fun hfg he => absurd (congrArg Prod.fst he) (ne_of_lt hfg)
  have hperm : o.Perm o' := (List.perm_ext_iff_of_nodup (hnodup h) (hnodup h')).mpr hmem
  exact hperm.eq_of_pairwise (fun f g _ _ hfg hgf => absurd hfg (lt_asymm hgf)) (hlt h) (hlt h')

/-- A sorted object is built from any list of its fields. -/
theorem ofList_eq_of_mem_iff {fields : List (String × Value)} {o : Object} (ho : o.Sorted)
    (h : ∀ f, f ∈ fields ↔ f ∈ o) : ofList fields = o := by
  refine eq_of_get?_eq (sorted_ofList fields) ho fun key => ?_
  cases hv : o.get? key with
  | some v =>
    refine get?_insertAll_of_mem ((h _).mpr (mem_of_get? hv)) fun v' hv' => ?_
    have hget := ho.get?_of_mem ((h _).mp hv')
    rw [hv] at hget
    exact (Option.some.inj hget).symm
  | none =>
    refine get?_insertAll_of_not_mem fun f hf he => ?_
    have hget := ho.get?_of_mem ((h _).mp hf)
    rw [he, hv] at hget
    cases hget

end Json.Object

end LiveSwitch
