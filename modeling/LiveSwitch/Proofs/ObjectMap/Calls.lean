import LiveSwitch.Calculation
import LiveSwitch.Proofs.ObjectMap.Indexed
import Mathlib.Data.List.Induction

/-!
# Calls of a map with two indexes

A caller adds, removes and edits objects in any order, goes on after refusals, and brings along
ids of its own, which may be negative, leave gaps or be those of objects that are gone.  Whatever
it does, as long as its edits keep names and ids and no object gets the largest id, the two indexes
agree with each other and with the counter, and the counter hands out ids that are new.

## Main definitions

* `ObjectMap.Change` — the calls that change a map.
* `IndexedMap.afterAll` — the map that calls lead to.
* `IndexedMap.BelowMax` — no object of the map has had the largest id.
* `IndexedMap.Coherent` — the indexes, the list of the objects and the counter agree.

## Main results

* `IndexedMap.Holds.apply`, `IndexedMap.holds_afterAll` — one call, and calls one after the other,
  do in place what they do to object maps.
* `IndexedMap.ahead_afterAll` — below the largest id the counter is beyond all ids.
* `IndexedMap.nextId_mono`, `IndexedMap.nextId_le` — the counter does not go back, and no further
  than the ids.
* `IndexedMap.calls_keep_coherent` — the map is coherent, a refused call changes nothing and a new
  id is new.
-/

namespace LiveSwitch

namespace IdCounter

/-- Handing out the next id is the same as seeing it in use. -/
theorem observe_next (c : IdCounter) : c.observe c.next = c.bump := if_pos (Int.le_refl _)

theorem observe_le {c : IdCounter} {id bound : Int} (hbound : 0 ≤ bound) (hc : c.next ≤ bound)
    (hid : id < bound) : (c.observe id).next ≤ bound := by
  rw [observe]
  split
  · show following id ≤ bound
    rw [following]
    split
    · exact Int.le_trans (by decide) hbound
    · exact hid
  · exact hc

end IdCounter

namespace ObjectMap

variable {α : Type} [Named α]

/-- The calls that change a map.  A new object has the name it is asked for and the id it is
given, and an edit keeps names and ids. -/
inductive Change (α : Type) [Named α] where
  | insert (a : α)
  | insertNew (name : String) (build : Int → α) (hname : ∀ id, nameOf (build id) = name)
    (hid : ∀ id, idOf (build id) = id)
  | remove (name : String)
  | modify (name : String) (f : α → α) (hf : KeepsIdentity f)
  | modifyAll (f : α → α) (hf : KeepsIdentity f)

/-- The map after a call; a refused one leaves it. -/
def apply (m : ObjectMap α) : Change α → ObjectMap α
  | .insert a =>
    match m.insert a with
    | .ok m' => m'
    | .error _ => m
  | .insertNew name build _ _ =>
    match m.insertNew name build with
    | .ok m' => m'
    | .error _ => m
  | .remove name => m.remove name
  | .modify name f _ => m.alter name f
  | .modifyAll f _ => m.modifyAll f

/-- The map that calls lead to. -/
def afterAll (changes : List (Change α)) : ObjectMap α := changes.foldl apply empty

theorem afterAll_concat (changes : List (Change α)) (c : Change α) :
    afterAll (changes ++ [c]) = (afterAll changes).apply c :=
  List.foldl_append

variable {m : ObjectMap α} {c : Change α} {bound : Int}

theorem Consistent.alter (hm : m.Consistent) {f : α → α} (hf : KeepsIdentity f) (name : String) :
    (m.alter name f).Consistent := by
  rw [ObjectMap.alter]
  split
  case h_1 a _ => exact hm.modify (fun b hb => (hf b).1.trans hb) fun b _ _ => (hf b).2
  case h_2 => exact hm

theorem Consistent.apply (hm : m.Consistent) (c : Change α) : (m.apply c).Consistent := by
  cases c with
  | insert a =>
    rw [ObjectMap.apply]
    split
    case h_1 hinsert => exact hm.insert hinsert
    case h_2 => exact hm
  | insertNew name build hname hid =>
    rw [ObjectMap.apply]
    split
    case h_1 hinsert => exact hm.insertNew hname hid hinsert
    case h_2 => exact hm
  | remove name => exact hm.remove name
  | modify name f hf => exact hm.alter hf name
  | modifyAll f hf => exact hm.modifyAll hf

theorem consistent_afterAll (changes : List (Change α)) : (afterAll changes).Consistent := by
  induction changes using List.reverseRecOn with
  | nil => exact .empty
  | append_singleton changes c ih =>
    rw [afterAll_concat]
    exact ih.apply c

/-! ### The counter -/

@[simp] theorem strays_alter (m : ObjectMap α) (name : String) (f : α → α) :
    (m.alter name f).strays = m.strays := by
  unfold alter
  split <;> rfl

/-- A call leaves the counter, or moves it beyond the id of an object that it has added. -/
theorem ids_apply (m : ObjectMap α) (c : Change α) : (m.apply c).ids = m.ids ∨
    ∃ a ∈ (m.apply c).objects, (m.apply c).ids = m.ids.observe (idOf a) := by
  cases c with
  | insert a =>
    rw [apply]
    split
    case h_1 hinsert =>
      obtain ⟨-, -, rfl⟩ := insert_eq_ok.mp hinsert
      exact Or.inr ⟨a, mem_place.mpr (Or.inl rfl), rfl⟩
    case h_2 => exact Or.inl rfl
  | insertNew name build hname hid =>
    rw [apply]
    split
    case h_1 hinsert =>
      obtain ⟨-, rfl⟩ := insertNew_eq_ok.mp hinsert
      refine Or.inr ⟨build m.ids.next, mem_place.mpr (Or.inl rfl), ?_⟩
      rw [hid, IdCounter.observe_next]
    case h_2 => exact Or.inl rfl
  | remove name => exact Or.inl (m.ids_remove name)
  | modify name f hf => exact Or.inl (m.ids_alter name f)
  | modifyAll f hf => exact Or.inl rfl

/-- The counter does not go back below the largest id. -/
theorem nextId_le_apply (h : ∀ a ∈ (m.apply c).objects, idOf a < maxId) :
    m.nextId ≤ (m.apply c).nextId := by
  rw [nextId, nextId]
  obtain hids | ⟨a, ha, hids⟩ := m.ids_apply c
  · exact Int.le_of_eq (congrArg IdCounter.next hids).symm
  · rw [hids]
    exact m.ids.le_observe (h a ha)

/-- The counter does not go further than the ids. -/
theorem nextId_apply_le (hzero : 0 ≤ bound) (hbound : m.nextId ≤ bound)
    (h : ∀ a ∈ (m.apply c).objects, idOf a < bound) : (m.apply c).nextId ≤ bound := by
  rw [nextId]
  obtain hids | ⟨a, ha, hids⟩ := m.ids_apply c
  · rw [hids]
    exact hbound
  · rw [hids]
    exact IdCounter.observe_le hzero hbound (h a ha)

/-- An object of the map after a call was there before, up to an edit, or it was added. -/
theorem idOf_mem_apply {a : α} (ha : a ∈ (m.apply c).objects) :
    (∃ b ∈ m.objects, idOf b = idOf a) ∨ (m.apply c).ids = m.ids.observe (idOf a) := by
  cases c with
  | insert b =>
    rw [apply] at ha ⊢
    split at ha
    case h_1 hinsert =>
      obtain ⟨-, -, rfl⟩ := insert_eq_ok.mp hinsert
      rcases mem_place.mp ha with rfl | ha
      · exact Or.inr rfl
      · exact Or.inl ⟨a, ha, rfl⟩
    case h_2 => exact Or.inl ⟨a, ha, rfl⟩
  | insertNew name build hname hid =>
    rw [apply] at ha ⊢
    split at ha
    case h_1 hinsert =>
      rcases (mem_insertNew hinsert).mp ha with rfl | ⟨ha, -⟩
      · obtain ⟨-, rfl⟩ := insertNew_eq_ok.mp hinsert
        rw [hid, IdCounter.observe_next]
        exact Or.inr rfl
      · exact Or.inl ⟨a, ha, rfl⟩
    case h_2 => exact Or.inl ⟨a, ha, rfl⟩
  | remove name => exact Or.inl ⟨a, mem_of_mem_remove ha, rfl⟩
  | modify name f hf =>
    rw [apply, alter] at ha
    split at ha
    case h_1 =>
      obtain ⟨b, hb, rfl⟩ := mem_modify.mp ha
      refine Or.inl ⟨b, hb, ?_⟩
      split
      · exact (hf b).2.symm
      · rfl
    case h_2 => exact Or.inl ⟨a, ha, rfl⟩
  | modifyAll f hf =>
    obtain ⟨b, hb, rfl⟩ := List.mem_map.mp ha
    exact Or.inl ⟨b, hb, (hf b).2.symm⟩

/-- The counter stays beyond all ids below the largest one. -/
theorem Ahead.apply (hm : m.Ahead) (h : ∀ a ∈ (m.apply c).objects, idOf a < maxId) :
    (m.apply c).Ahead := by
  intro a ha
  obtain ⟨b, hb, hid⟩ | hids := idOf_mem_apply ha
  · rw [← hid]
    exact Int.lt_of_lt_of_le (hm b hb) (nextId_le_apply h)
  · rw [hids]
    exact m.ids.lt_observe (h a ha)

/-- No name goes astray as long as the counter is beyond all ids. -/
theorem strays_apply (hm : m.Ahead) (hstrays : m.strays = []) (c : Change α) :
    (m.apply c).strays = [] := by
  cases c with
  | insert a =>
    rw [apply]
    split
    case h_1 hinsert =>
      obtain ⟨-, -, rfl⟩ := insert_eq_ok.mp hinsert
      exact hstrays
    case h_2 => exact hstrays
  | insertNew name build hname hid =>
    rw [apply]
    split
    case h_1 hinsert => exact (strays_insertNew_eq_nil hinsert).mpr ⟨hstrays, hm.free⟩
    case h_2 => exact hstrays
  | remove name =>
    rw [apply, remove_eq hstrays]
    exact hstrays
  | modify name f hf =>
    rw [apply, strays_alter]
    exact hstrays
  | modifyAll f hf => exact hstrays

end ObjectMap

open ObjectMap (Change)

namespace IndexedMap

variable {α : Type}

/-- What a computation leaves behind, finished or refused. -/
def left {β : Type} (x : Indexing α β) (t : IndexedMap α) : IndexedMap α :=
  match x.run t with
  | .ok _ t' => t'
  | .error _ t' => t'

variable {t : IndexedMap α}

theorem eq_of_insert_error [Named α] {a : α} {e : DuplicateError} {t' : IndexedMap α}
    (h : (insert a).run t = .error e t') : t' = t := by
  rw [run_insert] at h
  split at h
  · cases h
    rfl
  · split at h
    · cases h
      rfl
    · cases h

theorem eq_of_insertNew_error {name : String} {build : Int → α} {e : DuplicateError}
    {t' : IndexedMap α} (h : (insertNew name build).run t = .error e t') : t' = t := by
  rw [run_insertNew] at h
  split at h
  · cases h
    rfl
  · cases h

theorem eq_nextId_of_insertNew {name : String} {build : Int → α} {id : Int} {t' : IndexedMap α}
    (h : (insertNew name build).run t = .ok id t') : id = t.nextId := by
  rw [run_insertNew] at h
  split at h
  · cases h
  · cases h
    rfl

variable [Named α]

/-- The map after a call, which may have been refused. -/
def apply (t : IndexedMap α) : Change α → IndexedMap α
  | .insert a => left (insert a) t
  | .insertNew name build _ _ => left (insertNew name build) t
  | .remove name => left (remove name) t
  | .modify name f _ => left (modify name f) t
  | .modifyAll f _ => left (modifyAll f) t

/-- The map that calls lead to. -/
def afterAll (changes : List (Change α)) : IndexedMap α := changes.foldl apply {}

theorem afterAll_concat (changes : List (Change α)) (c : Change α) :
    afterAll (changes ++ [c]) = (afterAll changes).apply c :=
  List.foldl_append

variable {m : ObjectMap α} {before changes : List (Change α)}

/-- A call does in place what it does to the object map. -/
theorem Holds.apply (h : t.Holds m) (hm : m.Consistent) (c : Change α) :
    (t.apply c).Holds (m.apply c) := by
  cases c with
  | insert a =>
    rw [IndexedMap.apply, left, ObjectMap.apply]
    obtain ⟨e, hrefused, hrun⟩ | ⟨m', t', hinsert, hrun, hholds⟩ := h.insert hm a
    · rw [hrefused, hrun]
      exact h
    · rw [hinsert, hrun]
      exact hholds
  | insertNew name build hname hid =>
    rw [IndexedMap.apply, left, ObjectMap.apply]
    obtain ⟨hrefused, hrun⟩ | ⟨m', t', hinsert, hrun, hholds⟩ := h.insertNew hm hname hid
    · rw [hrefused, hrun]
      exact h
    · rw [hinsert, hrun]
      exact hholds
  | remove name =>
    obtain ⟨t', hrun, hholds⟩ := h.remove hm name
    rw [IndexedMap.apply, left, hrun]
    exact hholds
  | modify name f hf =>
    obtain ⟨t', hrun, hholds⟩ := h.alter hm hf name
    rw [IndexedMap.apply, left, hrun]
    exact hholds
  | modifyAll f hf =>
    obtain ⟨t', hrun, hholds⟩ := h.modifyAll hf
    rw [IndexedMap.apply, left, hrun]
    exact hholds

/-- Calls do in place what they do to the object map. -/
theorem holds_afterAll (changes : List (Change α)) :
    (afterAll changes).Holds (ObjectMap.afterAll changes) := by
  induction changes using List.reverseRecOn with
  | nil => exact ⟨rfl, fun _ => rfl, List.nodup_nil, rfl⟩
  | append_singleton changes c ih =>
    rw [afterAll_concat, ObjectMap.afterAll_concat]
    exact ih.apply (ObjectMap.consistent_afterAll changes) c

/-! ### Coherence -/

/-- No object that the map has had since the first of these calls has the largest id. -/
def BelowMax (changes : List (Change α)) : Prop :=
  ∀ before, before <+: changes → ∀ a ∈ (afterAll before).objects, idOf a < maxId

theorem BelowMax.mono (h : BelowMax changes) (hbefore : before <+: changes) : BelowMax before :=
  fun _ hpast => h _ (hpast.trans hbefore)

/-- Below the largest id the counter is beyond all ids, and no name is stray. -/
theorem ahead_afterAll (h : BelowMax changes) : (ObjectMap.afterAll changes).Ahead ∧
    (ObjectMap.afterAll changes).strays = [] := by
  induction changes using List.reverseRecOn with
  | nil => exact ⟨fun a ha => absurd ha List.not_mem_nil, rfl⟩
  | append_singleton changes c ih =>
    obtain ⟨hahead, hstrays⟩ := ih (h.mono (List.prefix_append _ _))
    have hmax := h _ (List.prefix_refl _)
    rw [(holds_afterAll _).objects_eq] at hmax
    rw [ObjectMap.afterAll_concat] at hmax ⊢
    exact ⟨hahead.apply hmax, ObjectMap.strays_apply hahead hstrays c⟩

/-- The indexes, the list of the objects and the counter agree. -/
structure Coherent (t : IndexedMap α) : Prop where
  names : t.names.Nodup
  ids : (t.objects.map idOf).Pairwise (· < ·)
  get? : ∀ name a, t.get? name = some a ↔ a ∈ t.objects ∧ nameOf a = name
  getById? : ∀ id a, t.getById? id = some a ↔ a ∈ t.objects ∧ idOf a = id
  length_objects : t.objects.length = t.size
  length_byName : t.byName.length = t.size
  below : ∀ a ∈ t.objects, idOf a < t.nextId

theorem Holds.length_byName (h : t.Holds m) (hm : m.Consistent) (hstrays : m.strays = []) :
    t.byName.length = m.objects.length := by
  -- no name is listed twice on either side, so it is enough that both list the same ones
  have hkeys : (t.byName.map Prod.fst).Perm m.names := by
    refine (List.perm_ext_iff_of_nodup h.keys hm.names).mpr fun name => ?_
    rw [Assoc.mem_keys_iff, h.byName, m.isSome_idUnder?, ObjectMap.contains_eq_isSome hstrays,
      ObjectMap.lookup?_eq_get? hstrays, ObjectMap.names, List.mem_map]
    constructor
    · intro hsome
      obtain ⟨a, ha⟩ := Option.isSome_iff_exists.mp hsome
      exact ⟨a, ObjectMap.mem_of_get? ha⟩
    · rintro ⟨a, ha, rfl⟩
      rw [ObjectMap.get?_of_mem hm.names ha]
      rfl
  have := hkeys.length_eq
  rwa [List.length_map, ObjectMap.names, List.length_map] at this

theorem Holds.coherent (h : t.Holds m) (hm : m.Consistent) (hahead : m.Ahead)
    (hstrays : m.strays = []) : t.Coherent := by
  have hobjects := h.objects_eq
  refine ⟨?_, ?_, fun name a => ?_, fun id a => ?_, List.length_map _, ?_, fun a ha => ?_⟩
  · rw [names, hobjects]
    exact hm.names
  · rw [hobjects]
    exact hm.ids
  · rw [h.get?_eq hm, hobjects, ObjectMap.lookup?_eq_get? hstrays]
    constructor
    · exact ObjectMap.mem_of_get?
    · rintro ⟨ha, rfl⟩
      exact ObjectMap.get?_of_mem hm.names ha
  · rw [h.getById?_eq, hobjects]
    constructor
    · exact ObjectMap.mem_of_getById?
    · rintro ⟨ha, rfl⟩
      exact hm.getById?_of_mem ha
  · rw [h.length_byName hm hstrays, ← hobjects]
    exact List.length_map _
  · rw [h.nextId_eq]
    exact hahead a (hobjects ▸ ha)

theorem coherent_afterAll (h : BelowMax changes) : (afterAll changes).Coherent :=
  (holds_afterAll changes).coherent (ObjectMap.consistent_afterAll changes)
    (ahead_afterAll h).1 (ahead_afterAll h).2

/-! ### The counter -/

theorem nextId_afterAll (changes : List (Change α)) :
    (afterAll changes).nextId = (ObjectMap.afterAll changes).nextId :=
  (holds_afterAll changes).nextId_eq

/-- Calls do not move the counter back below the largest id. -/
theorem nextId_mono (hmax : BelowMax changes) (h : before <+: changes) :
    (afterAll before).nextId ≤ (afterAll changes).nextId := by
  obtain ⟨rest, rfl⟩ := h
  induction rest using List.reverseRecOn with
  | nil => simp
  | append_singleton rest c ih =>
    rw [← List.append_assoc] at hmax ⊢
    refine Int.le_trans (ih (hmax.mono (List.prefix_append _ _))) ?_
    have hlast := hmax _ (List.prefix_refl _)
    rw [(holds_afterAll _).objects_eq, ObjectMap.afterAll_concat] at hlast
    rw [nextId_afterAll, nextId_afterAll, ObjectMap.afterAll_concat]
    exact ObjectMap.nextId_le_apply hlast

/-- The counter goes no further than the ids that objects had. -/
theorem nextId_le {bound : Int} (hbound : 0 ≤ bound)
    (h : ∀ before, before <+: changes → ∀ a ∈ (afterAll before).objects, idOf a < bound) :
    (afterAll changes).nextId ≤ bound := by
  induction changes using List.reverseRecOn with
  | nil => exact hbound
  | append_singleton changes c ih =>
    have hprefix : changes <+: changes ++ [c] := List.prefix_append _ _
    have hchanges := ih fun before hbefore => h before (hbefore.trans hprefix)
    have hlast := h _ (List.prefix_refl _)
    rw [(holds_afterAll _).objects_eq, ObjectMap.afterAll_concat] at hlast
    rw [nextId_afterAll] at hchanges ⊢
    rw [ObjectMap.afterAll_concat]
    exact ObjectMap.nextId_apply_le hbound hchanges hlast

/-! ### Refusals -/

theorem Holds.contains_iff (h : t.Holds m) (hstrays : m.strays = []) {name : String} :
    t.contains name ↔ ∃ a ∈ t.objects, nameOf a = name := by
  rw [h.contains_eq, h.objects_eq, ObjectMap.contains_eq_isSome hstrays,
    ObjectMap.lookup?_eq_get? hstrays, Option.isSome_iff_ne_none, ne_eq, ObjectMap.get?_eq_none_iff]
  simp

theorem Holds.isSome_getById?_iff (h : t.Holds m) {id : Int} :
    (t.getById? id).isSome ↔ ∃ a ∈ t.objects, idOf a = id := by
  rw [h.getById?_eq, h.objects_eq, Option.isSome_iff_ne_none, ne_eq,
    ObjectMap.getById?_eq_none_iff]
  simp

/-- An object is refused for its name or its id. -/
theorem Holds.insert_refused_iff (h : t.Holds m) (hstrays : m.strays = []) {a : α} :
    (∃ e t', (IndexedMap.insert a).run t = .error e t') ↔
      ∃ b ∈ t.objects, nameOf b = nameOf a ∨ idOf b = idOf a := by
  have hsplit : (∃ b ∈ t.objects, nameOf b = nameOf a ∨ idOf b = idOf a) ↔
      t.contains (nameOf a) ∨ (t.getById? (idOf a)).isSome := by
    rw [h.contains_iff hstrays, h.isSome_getById?_iff, ← exists_or]
    exact exists_congr fun b => and_or_left
  rw [hsplit, run_insert]
  by_cases hname : t.contains (nameOf a)
  · rw [if_pos hname]
    exact iff_of_true ⟨_, _, rfl⟩ (Or.inl hname)
  rw [if_neg hname]
  by_cases hid : (t.getById? (idOf a)).isSome
  · rw [if_pos hid]
    exact iff_of_true ⟨_, _, rfl⟩ (Or.inr hid)
  · rw [if_neg hid]
    exact iff_of_false nofun (not_or.mpr ⟨hname, hid⟩)

/-- A new object is refused for its name. -/
theorem Holds.insertNew_refused_iff (h : t.Holds m) (hstrays : m.strays = []) {name : String}
    {build : Int → α} :
    (∃ e t', (IndexedMap.insertNew name build).run t = .error e t') ↔
      ∃ b ∈ t.objects, nameOf b = name := by
  rw [← h.contains_iff hstrays, run_insertNew]
  by_cases hname : t.contains name
  · rw [if_pos hname]
    exact iff_of_true ⟨_, _, rfl⟩ hname
  · rw [if_neg hname]
    exact iff_of_false nofun hname

/-- Whatever calls were made, as long as no object had the largest id, a map with two indexes holds
the objects that they leave, and it is coherent: names and ids are distinct, both look-ups find
every object, the list goes up in the ids, and the counter lies beyond them.  An object is refused
just for a name or an id that is in use, and then nothing changes.  The id of a new object was never
one of an object of the map, and the counter does not pass a bound of the ids that objects had. -/
theorem calls_keep_coherent (changes : List (Change α)) (hmax : BelowMax changes) :
    let t := afterAll changes
    t.Holds (ObjectMap.afterAll changes) ∧ t.Coherent ∧
    (∀ a, (∃ e t', (insert a).run t = .error e t') ↔
      ∃ b ∈ t.objects, nameOf b = nameOf a ∨ idOf b = idOf a) ∧
    (∀ a e t', (insert a).run t = .error e t' → t' = t) ∧
    (∀ name build, (∃ e t', (insertNew name build).run t = .error e t') ↔
      ∃ b ∈ t.objects, nameOf b = name) ∧
    (∀ name build e t', (insertNew name build).run t = .error e t' → t' = t) ∧
    (∀ name build id t', (insertNew name build).run t = .ok id t' →
      ∀ before, before <+: changes → ∀ a ∈ (afterAll before).objects, idOf a ≠ id) ∧
    ∀ bound, 0 ≤ bound →
      (∀ before, before <+: changes → ∀ a ∈ (afterAll before).objects, idOf a < bound) →
        t.nextId ≤ bound := by
  intro t
  have hholds : t.Holds (ObjectMap.afterAll changes) := holds_afterAll changes
  have hstrays := (ahead_afterAll hmax).2
  refine ⟨hholds, coherent_afterAll hmax, fun a => hholds.insert_refused_iff hstrays,
    fun a e t' => eq_of_insert_error, fun name build => hholds.insertNew_refused_iff hstrays,
    fun name build e t' => eq_of_insertNew_error,
    fun name build id t' hrun before hbefore a ha => ?_, fun bound => nextId_le⟩
  -- the id lay below the counter at that time, and the counter has not gone back since
  have hbelow := (coherent_afterAll (hmax.mono hbefore)).below a ha
  rw [eq_nextId_of_insertNew hrun]
  exact Int.ne_of_lt (Int.lt_of_lt_of_le hbelow (nextId_mono hmax hbefore))

/-- A removed object's id is brought along again, another id is negative, and a removed name is
used for a new object; the next new id is none that was in use. -/
theorem calls_keep_coherent_reused_id :
    let entry (name : String) (id : Int) : Calculation :=
      { identity := { name, id }, algorithm := .csum16, inputs := [], inputJson := [], extra := [] }
    let changes : List (Change Calculation) :=
      [.insert (entry "a" 5), .insertNew "b" (entry "b") (fun _ => rfl) (fun _ => rfl),
        .remove "a", .insert (entry "c" 5), .insert (entry "d" (-3)), .insert (entry "d" 40),
        .insertNew "a" (entry "a") (fun _ => rfl) (fun _ => rfl)]
    (afterAll changes).objects.map idOf = [-3, 5, 6, 7] ∧ (afterAll changes).Coherent ∧
      ∀ before, before <+: changes → ∀ a ∈ (afterAll before).objects, idOf a ≠ 8 := by
  intro entry changes
  have hmax : BelowMax changes := by
    have hall : ∀ n, n < 8 →
        (afterAll (changes.take n)).objects.all fun a => decide (idOf a < maxId) := by
      decide +kernel
    intro before hbefore a ha
    have hlength : before.length < 8 := Nat.lt_succ_of_le hbefore.length_le
    rw [List.prefix_iff_eq_take.mp hbefore] at ha
    exact of_decide_eq_true (List.all_eq_true.mp (hall _ hlength) a ha)
  obtain ⟨-, hcoherent, -, -, -, -, hnew, -⟩ := calls_keep_coherent changes hmax
  have hids : (afterAll changes).objects.map idOf = [-3, 5, 6, 7] := by decide +kernel
  have hfree : ¬(afterAll changes).contains "e" := by decide +kernel
  have hnext : (afterAll changes).nextId = 8 := by decide +kernel
  have hrun := run_insertNew (afterAll changes) "e" (entry "e")
  rw [if_neg hfree, hnext] at hrun
  exact ⟨hids, hcoherent, hnew _ _ _ _ hrun⟩

end IndexedMap

end LiveSwitch
