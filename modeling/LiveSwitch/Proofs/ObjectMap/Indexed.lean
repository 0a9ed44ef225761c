import LiveSwitch.ObjectMap.Indexed
import LiveSwitch.Proofs.Exchange

/-!
# Two indexes that agree

A map with two indexes holds the objects of an object map: under their ids the objects
themselves, under their names and the stray names their ids, and the same counter.  Its look-ups
find what those of the object map find, and every operation in place does to it what the operation
as a whole does to the object map, and gives the same result.  That does not depend on the
counter: a new object whose id is in use takes the place of an object in both.

## Main definitions

* `IndexedMap.Holds` — a map with two indexes holds the objects of an object map.
* `ObjectMap.KeepsIdentity` — a change of objects that keeps their names and ids.

## Main results

* `IndexedMap.Holds.get?_eq`, `getById?_eq` — the look-ups of both maps agree.
* `IndexedMap.Holds.insert`, `insertNew`, `remove`, `alter`, `modifyAll` — the operations in
  place do what those of object maps do.
-/

namespace LiveSwitch

namespace ObjectMap

variable {α : Type} [Named α]

/-- A change of objects that keeps their names and ids. -/
def KeepsIdentity (f : α → α) : Prop := ∀ a, nameOf (f a) = nameOf a ∧ idOf (f a) = idOf a

theorem KeepsIdentity.map_idOf {f : α → α} (hf : KeepsIdentity f) (a? : Option α) :
    (a?.map f).map idOf = a?.map idOf := by
  cases a? with
  | none => rfl
  | some a => exact congrArg some (hf a).2

theorem get?_modifyAll {m : ObjectMap α} {f : α → α} (hf : KeepsIdentity f) (name : String) :
    (m.modifyAll f).get? name = (m.get? name).map f := by
  rw [get?, modifyAll, List.find?_map, get?]
  refine congrArg (fun p => (m.objects.find? p).map f) (funext fun a => ?_)
  rw [Function.comp_apply, (hf a).1]

theorem Consistent.modifyAll {m : ObjectMap α} (hm : m.Consistent) {f : α → α}
    (hf : KeepsIdentity f) : (m.modifyAll f).Consistent := by
  have hnames : (m.modifyAll f).names = m.names := by
    rw [ObjectMap.names, ObjectMap.modifyAll, List.map_map]
    exact List.map_congr_left fun a _ => (hf a).1
  have hids : (m.modifyAll f).objects.map idOf = m.objects.map idOf := by
    rw [ObjectMap.modifyAll, List.map_map]
    exact List.map_congr_left fun a _ => (hf a).2
  refine ⟨hnames ▸ hm.names, hids ▸ hm.ids, fun b hb => ?_⟩
  obtain ⟨a, ha, rfl⟩ := List.mem_map.mp hb
  rw [(hf a).1]
  exact hm.strays a ha

/-- Of consistent objects, one name and one id mean the same one. -/
theorem Consistent.nameOf_eq_iff {m : ObjectMap α} (hm : m.Consistent) {a b : α}
    (ha : a ∈ m.objects) (hb : b ∈ m.objects) : nameOf b = nameOf a ↔ idOf b = idOf a := by
  constructor
  · intro h
    rw [eq_of_name_eq hm.names hb ha h]
  · intro h
    rw [hm.eq_of_id_eq hb ha h]

end ObjectMap

open ObjectMap (place KeepsIdentity)

/-! ### Objects under their ids -/

section

variable {α : Type} [Named α]

/-- The objects of a list under their ids. -/
def keyed (l : List α) : List (Int × α) := l.map fun a => (idOf a, a)

theorem lookup_keyed (id : Int) (l : List α) :
    (keyed l).lookup id = l.find? fun a => idOf a == id := by
  induction l with
  | nil => rfl
  | cons a l ih =>
    rw [keyed, List.map_cons, Assoc.lookup_cons_eq]
    by_cases h : id = idOf a
    · rw [if_pos h, List.find?_cons_of_pos (by simp [h])]
    · rw [if_neg h, List.find?_cons_of_neg (by simpa using Ne.symm h)]
      exact ih

/-- An object goes where its id belongs, in the place of one that has the id. -/
theorem insert_keyed {a : α} {l : List α} (h : (l.map idOf).Pairwise (· < ·)) :
    Assoc.insert (idOf a) a (keyed l) = keyed (place a (l.filter fun b => idOf b != idOf a)) := by
  induction l with
  | nil => rfl
  | cons b l ih =>
    rw [List.map_cons, List.pairwise_cons] at h
    have hlater : ∀ c ∈ l, idOf b < idOf c := fun c hc => h.1 _ (List.mem_map_of_mem hc)
    rw [keyed, List.map_cons, Assoc.insert]
    by_cases heq : idOf a = idOf b
    · -- the objects after the one with the id have larger ids
      have hrest : (l.filter fun c => idOf c != idOf a) = l :=
        List.filter_eq_self.mpr fun c hc => bne_iff_ne.mpr (heq ▸ (Int.ne_of_lt (hlater c hc)).symm)
      rw [if_pos (beq_iff_eq.mpr heq), List.filter_cons_of_neg (by simp [heq]), hrest,
        ObjectMap.place_eq_cons fun c hc => heq ▸ hlater c hc]
      rfl
    · rw [if_neg (by simpa using heq), List.filter_cons_of_pos (by simpa using Ne.symm heq), place]
      by_cases hlt : idOf a < idOf b
      · have hrest : (l.filter fun c => idOf c != idOf a) = l :=
          List.filter_eq_self.mpr fun c hc => bne_iff_ne.mpr (by have := hlater c hc; omega)
        rw [if_pos hlt, if_pos hlt, hrest]
        rfl
      · rw [if_neg hlt, if_neg hlt]
        exact congrArg _ (ih h.2)

theorem erase_keyed (id : Int) (l : List α) :
    Assoc.erase id (keyed l) = keyed (l.filter fun a => idOf a != id) := by
  rw [Assoc.erase, keyed, keyed, List.filter_map]
  rfl

theorem map_keyed {f g : α → α} {l : List α} (hid : ∀ a ∈ l, idOf (g a) = idOf a)
    (hf : ∀ a ∈ l, f a = g a) : (l.map fun a => (idOf a, f a)) = keyed (l.map g) := by
  rw [keyed, List.map_map]
  refine List.map_congr_left fun a ha => ?_
  show (idOf a, f a) = (idOf (g a), g a)
  rw [hid a ha, hf a ha]

end

namespace IndexedMap

variable {α : Type}

/-! ### Operations in place -/

theorem run_insert [Named α] (t : IndexedMap α) (a : α) : (insert a).run t =
    if t.contains (nameOf a) then .error (.name (nameOf a)) t
    else if (t.getById? (idOf a)).isSome then .error (.id (idOf a)) t
    else .ok (idOf a)
      { byId := Assoc.insert (idOf a) a t.byId
        byName := Assoc.set (nameOf a) (idOf a) t.byName
        ids := t.ids.observe (idOf a) } := by
  unfold insert
  rw [EStateM.run_bind, EStateM.run_get]
  dsimp only
  split
  · rfl
  · rw [EStateM.run_bind, EStateM.run_get]
    dsimp only
    split <;> rfl

theorem run_insertNew (t : IndexedMap α) (name : String) (build : Int → α) :
    (insertNew name build).run t =
      if t.contains name then .error (.name name) t
      else .ok t.nextId
        { byId := Assoc.insert t.nextId (build t.nextId) t.byId
          byName := Assoc.set name t.nextId t.byName
          ids := t.ids.bump } := by
  unfold insertNew
  rw [EStateM.run_bind, EStateM.run_get]
  dsimp only
  split <;> rfl

theorem run_remove (t : IndexedMap α) (name : String) : (remove name).run t =
    match t.byName.lookup name with
    | none => .ok none { t with byName := Assoc.erase name t.byName }
    | some id => .ok (t.getById? id)
        { t with byId := Assoc.erase id t.byId, byName := Assoc.erase name t.byName } := by
  show EStateM.run (match t.byName.lookup name with
    | none => return none
    | some id => takeObject id) { t with byName := Assoc.erase name t.byName } = _
  split <;> rfl

theorem run_modify (t : IndexedMap α) (name : String) (f : α → α) : (modify name f).run t =
    match t.byName.lookup name with
    | none => .ok none t
    | some id => .ok ((t.getById? id).map f)
        { t with byId := t.byId.map fun p => (p.1, if p.1 == id then f p.2 else p.2) } := by
  show EStateM.run (match t.byName.lookup name with
    | none => return none
    | some id => editObject id f) t = _
  split <;> rfl

theorem run_modifyAll (t : IndexedMap α) (f : α → α) : (modifyAll f).run t =
    .ok () { t with byId := t.byId.map fun p => (p.1, f p.2) } :=
  rfl

/-! ### What is held -/

variable [Named α]

/-- A map with two indexes holds the objects of an object map: under their ids the objects, under
all names the ids that these lead to, and the counter. -/
structure Holds (t : IndexedMap α) (m : ObjectMap α) : Prop where
  byId : t.byId = keyed m.objects
  byName : ∀ name, t.byName.lookup name = m.idUnder? name
  keys : (t.byName.map Prod.fst).Nodup
  ids : t.ids = m.ids

variable {t : IndexedMap α} {m : ObjectMap α} {a : α} {name : String}

namespace Holds

theorem objects_eq (h : t.Holds m) : t.objects = m.objects := by
  rw [objects, h.byId, keyed, List.map_map]
  exact List.map_id _

theorem getById?_eq (h : t.Holds m) (id : Int) : t.getById? id = m.getById? id := by
  rw [getById?, h.byId, lookup_keyed, ObjectMap.getById?]

theorem get?_eq (h : t.Holds m) (hm : m.Consistent) (name : String) :
    t.get? name = m.lookup? name := by
  rw [get?, h.byName, hm.lookup?_eq]
  exact congrArg _ (funext h.getById?_eq)

theorem contains_eq (h : t.Holds m) (name : String) : t.contains name = m.contains name := by
  rw [contains, h.byName, m.isSome_idUnder?]

theorem nextId_eq (h : t.Holds m) : t.nextId = m.nextId := by
  rw [nextId, h.ids, ObjectMap.nextId]

end Holds

/-! ### What the operations do to the objects held -/

namespace Holds

/-- An object under a new name goes into both indexes, in the place of one that has its id. -/
theorem enter (h : t.Holds m) (hm : m.Consistent) (hname : m.contains (nameOf a) = false)
    (ids : IdCounter) :
    Holds
      { byId := Assoc.insert (idOf a) a t.byId
        byName := Assoc.set (nameOf a) (idOf a) t.byName
        ids }
      { m.vacate (idOf a) with objects := place a (m.vacate (idOf a)).objects, ids } where
  byId := by
    dsimp only
    rw [h.byId, insert_keyed hm.ids]
    rfl
  byName key := by
    obtain ⟨hstray, hget⟩ := ObjectMap.contains_eq_false.mp hname
    have hne := ObjectMap.get?_eq_none_iff.mp hget
    have hplace : ∀ key, (place a (m.vacate (idOf a)).objects).find? (fun b => nameOf b == key) =
        if key = nameOf a then some a else (m.vacate (idOf a)).get? key :=
      ObjectMap.find?_place fun b hb => hne b (ObjectMap.mem_vacate.mp hb).1
    have hstray' : (m.vacate (idOf a)).strays.lookup (nameOf a) = none :=
      ObjectMap.lookup_strays_vacate.mpr
        ⟨hstray, fun b hb => hne b (ObjectMap.mem_of_getById? hb).1⟩
    dsimp only
    rw [Assoc.lookup_set, ObjectMap.idUnder?, ObjectMap.get?]
    dsimp only
    rw [hplace]
    split
    case isTrue hkey =>
      rw [hkey, hstray']
      rfl
    case isFalse hkey => rw [h.byName, ← hm.idUnder?_vacate (idOf a), ObjectMap.idUnder?]
  keys := Assoc.nodup_set h.keys _ _
  ids := rfl

theorem insert (h : t.Holds m) (hm : m.Consistent) (a : α) :
    (∃ e, m.insert a = .error e ∧ (IndexedMap.insert a).run t = .error e t) ∨
    ∃ m' t', m.insert a = .ok m' ∧ (IndexedMap.insert a).run t = .ok (idOf a) t' ∧
      t'.Holds m' := by
  rw [run_insert, h.contains_eq, h.getById?_eq, ObjectMap.insert]
  by_cases hname : m.contains (nameOf a)
  · rw [if_pos hname, if_pos hname]
    exact Or.inl ⟨_, rfl, rfl⟩
  rw [if_neg hname, if_neg hname]
  by_cases hid : (m.getById? (idOf a)).isSome
  · rw [if_pos hid, if_pos hid]
    exact Or.inl ⟨_, rfl, rfl⟩
  rw [if_neg hid, if_neg hid, h.ids]
  have hfree := ObjectMap.getById?_eq_none_iff.mp (Option.not_isSome_iff_eq_none.mp hid)
  have henter := h.enter hm (Bool.not_eq_true _ ▸ hname) (m.ids.observe (idOf a))
  rw [ObjectMap.vacate_eq_self hfree] at henter
  exact Or.inr ⟨_, _, rfl, rfl, henter⟩

theorem insertNew (h : t.Holds m) (hm : m.Consistent) {build : Int → α}
    (hname : ∀ id, nameOf (build id) = name) (hid : ∀ id, idOf (build id) = id) :
    (m.insertNew name build = .error (.name name) ∧
      (IndexedMap.insertNew name build).run t = .error (.name name) t) ∨
    ∃ m' t', m.insertNew name build = .ok m' ∧
      (IndexedMap.insertNew name build).run t = .ok m.nextId t' ∧ t'.Holds m' := by
  rw [run_insertNew, h.contains_eq, h.nextId_eq, ObjectMap.insertNew]
  by_cases hfree : m.contains name
  · rw [if_pos hfree, if_pos hfree]
    exact Or.inl ⟨rfl, rfl⟩
  rw [if_neg hfree, if_neg hfree, h.ids]
  have henter := h.enter (a := build m.nextId) hm (by rw [hname]; simpa using hfree) m.ids.bump
  rw [hname, hid] at henter
  exact Or.inr ⟨_, _, rfl, rfl, henter⟩

theorem remove (h : t.Holds m) (hm : m.Consistent) (name : String) :
    ∃ t', (IndexedMap.remove name).run t = .ok (m.lookup? name) t' ∧ t'.Holds (m.remove name) := by
  have hkeys := Assoc.nodup_erase h.keys name
  rw [run_remove, h.byName, hm.lookup?_eq, ObjectMap.remove]
  cases hstray : m.strays.lookup name with
  | some id =>
    -- the name is given up first, and then the object that has its id leaves
    have hm' : ObjectMap.Consistent { m with strays := Assoc.erase name m.strays } := by
      refine ⟨hm.names, hm.ids, fun a ha => ?_⟩
      rw [Assoc.lookup_erase]
      split
      · rfl
      · exact hm.strays a ha
    rw [ObjectMap.idUnder?_of_stray hstray]
    refine ⟨{ t with byId := Assoc.erase id t.byId, byName := Assoc.erase name t.byName },
      by rw [Option.bind_some, ← h.getById?_eq], ?_, fun key => ?_, hkeys, h.ids⟩
    · dsimp only
      rw [h.byId, erase_keyed]
      rfl
    · dsimp only
      rw [hm'.idUnder?_vacate, Assoc.lookup_erase, ObjectMap.idUnder?]
      dsimp only
      rw [Assoc.lookup_erase]
      split
      case isTrue hkey =>
        -- no object has the name, as it was a stray one
        have hnone : m.get? key = none := by
          refine ObjectMap.get?_eq_none_iff.mpr fun a ha heq => ?_
          rw [← hkey, ← heq, hm.strays a ha] at hstray
          cases hstray
        exact (congrArg (Option.map idOf) hnone).symm
      case isFalse hkey => rw [h.byName, ObjectMap.idUnder?]; rfl
  | none =>
    have hnames : ∀ key, (Assoc.erase name t.byName).lookup key =
        ObjectMap.idUnder?
          { m with objects := m.objects.filter fun a => nameOf a != name } key := by
      intro key
      rw [Assoc.lookup_erase, ObjectMap.idUnder?]
      dsimp only
      split
      case isTrue hkey =>
        rw [hkey, hstray, ObjectMap.get?_filter_ne, if_pos rfl]
        rfl
      case isFalse hkey =>
        rw [h.byName, ObjectMap.idUnder?, ObjectMap.get?_filter_ne, if_neg hkey]
    rw [ObjectMap.idUnder?_of_not_stray hstray]
    cases ha : m.get? name with
    | none =>
      refine ⟨_, rfl, ?_, hnames, hkeys, h.ids⟩
      have hall : (m.objects.filter fun a => nameOf a != name) = m.objects :=
        List.filter_eq_self.mpr fun b hb => bne_iff_ne.mpr (ObjectMap.get?_eq_none_iff.mp ha b hb)
      dsimp only
      rw [hall, ← h.byId]
    | some a =>
      obtain ⟨hmem, rfl⟩ := ObjectMap.mem_of_get? ha
      refine ⟨{ t with
          byId := Assoc.erase (idOf a) t.byId, byName := Assoc.erase (nameOf a) t.byName },
        by rw [Option.map_some, Option.bind_some, ← h.getById?_eq], ?_, hnames, hkeys, h.ids⟩
      dsimp only
      rw [h.byId, erase_keyed]
      refine congrArg keyed (List.filter_congr fun b hb => ?_)
      rw [Bool.eq_iff_iff, bne_iff_ne, bne_iff_ne]
      exact not_congr (hm.nameOf_eq_iff hmem hb).symm

theorem alter (h : t.Holds m) (hm : m.Consistent) {f : α → α} (hf : KeepsIdentity f)
    (name : String) : ∃ t', (IndexedMap.modify name f).run t = .ok ((m.lookup? name).map f) t' ∧
      t'.Holds (m.alter name f) := by
  rw [run_modify, h.byName, hm.lookup?_eq, ObjectMap.alter, hm.lookup?_eq]
  cases hid : m.idUnder? name with
  | none => exact ⟨t, rfl, h⟩
  | some id =>
    refine ⟨{ t with byId := t.byId.map fun p => (p.1, if p.1 == id then f p.2 else p.2) },
      by rw [Option.bind_some, ← h.getById?_eq], ?_⟩
    rw [Option.bind_some]
    cases ha : m.getById? id with
    | none =>
      -- nothing is under the id
      refine ⟨?_, h.byName, h.keys, h.ids⟩
      dsimp only
      rw [h.byId, keyed, List.map_map]
      refine List.map_congr_left fun b hb => ?_
      dsimp only [Function.comp_apply]
      rw [if_neg (by simpa using ObjectMap.getById?_eq_none_iff.mp ha b hb)]
    | some a =>
      obtain ⟨hmem, rfl⟩ := ObjectMap.mem_of_getById? ha
      refine ⟨?_, fun key => ?_, h.keys, h.ids⟩
      · dsimp only
        rw [h.byId, keyed, List.map_map]
        refine map_keyed (fun b hb => ?_) fun b hb => ?_
        · split
          · exact (hf b).2
          · rfl
        · dsimp only
          rw [beq_eq_decide, beq_eq_decide, decide_eq_decide.mpr (hm.nameOf_eq_iff hmem hb)]
      · dsimp only
        rw [h.byName, ObjectMap.idUnder?, ObjectMap.idUnder?,
          ObjectMap.get?_modify fun b hb => (hf b).1.trans hb]
        dsimp only [ObjectMap.modify]
        split
        · rfl
        · split
          case isTrue hkey => rw [hf.map_idOf, hkey]
          case isFalse => rfl

theorem modifyAll (h : t.Holds m) {f : α → α} (hf : KeepsIdentity f) :
    ∃ t', (IndexedMap.modifyAll f).run t = .ok () t' ∧ t'.Holds (m.modifyAll f) := by
  refine ⟨_, run_modifyAll t f, ?_, fun name => ?_, h.keys, h.ids⟩
  · dsimp only
    rw [h.byId, keyed, List.map_map]
    exact map_keyed (fun a _ => (hf a).2) fun a _ => rfl
  · rw [h.byName, ObjectMap.idUnder?, ObjectMap.idUnder?, ObjectMap.get?_modifyAll hf, hf.map_idOf]
    rfl

end Holds

end IndexedMap

end LiveSwitch
