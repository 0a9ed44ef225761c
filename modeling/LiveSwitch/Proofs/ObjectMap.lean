import LiveSwitch.ObjectMap
import Mathlib.Data.List.Find
import Mathlib.Data.List.Nodup

/-!
# Object maps stay consistent

An object map is consistent when no two objects share a name, the ids go up strictly along
the list, and no object has a stray name.  Every operation keeps it so, provided that a change
of an object keeps its name and id.  The counter is beyond all ids only until it goes round.
Then a name may go astray, and no name is found back: where there are no stray names, there
never were any.

## Main definitions

* `ObjectMap.Consistent` — the invariant.
* `ObjectMap.Ahead` — the counter is beyond all ids.
* `Identity.Before` — the order of the objects.

## Main results

* `ObjectMap.get?_modify`, `lookup?_modify` — a change through the look-ups by name.
* `ObjectMap.Consistent.insert`, `insertNew`, `modify`, `remove` — the operations keep the
  invariant.
* `ObjectMap.lookup?_insertNew`, `lookup?_remove` — where no name goes astray, an object is added
  to the others, and removed from them.
* `ObjectMap.Consistent.contains_insertNew`, `contains_remove` — which names are taken.
* `ObjectMap.Ahead.insert` — the counter stays beyond all ids up to the largest id.
-/

namespace LiveSwitch

/-- An identity comes before another one, by its id and under another name. -/
def Identity.Before (i j : Identity) : Prop := i.id < j.id ∧ i.name ≠ j.name

namespace ObjectMap

variable {α : Type} [Named α]

/-- Names are unique and not stray, and ids go up strictly. -/
structure Consistent (m : ObjectMap α) : Prop where
  names : m.names.Nodup
  ids : (m.objects.map idOf).Pairwise (· < ·)
  strays : ∀ a ∈ m.objects, m.strays.lookup (nameOf a) = none

/-- The ids lie below the counter. -/
def Ahead (m : ObjectMap α) : Prop := ∀ a ∈ m.objects, idOf a < m.ids.next

/-! ### Placing an object by its id -/

theorem perm_place (a : α) (l : List α) : (place a l).Perm (a :: l) := by
  induction l with
  | nil => exact List.Perm.refl _
  | cons b l ih =>
    rw [place]
    split
    · exact List.Perm.refl _
    · exact (ih.cons b).trans (List.Perm.swap a b l)

/-- Placing an object under an id that is not in use keeps the ids in order. -/
theorem pairwise_place {a : α} {l : List α} (hl : (l.map idOf).Pairwise (· < ·))
    (ha : ∀ b ∈ l, idOf b ≠ idOf a) : ((place a l).map idOf).Pairwise (· < ·) := by
  induction l with
  | nil => exact List.pairwise_singleton _ _
  | cons b l ih =>
    rw [List.map_cons, List.pairwise_cons] at hl
    have hb : idOf b ≠ idOf a := ha b List.mem_cons_self
    rw [place]
    split
    case isTrue hlt =>
      rw [List.map_cons, List.pairwise_cons, List.map_cons, List.pairwise_cons]
      refine ⟨?_, hl⟩
      rintro i hi
      rcases List.mem_cons.mp hi with rfl | hi
      · exact hlt
      · have := hl.1 i hi
        omega
    case isFalse hge =>
      rw [List.map_cons, List.pairwise_cons]
      refine ⟨?_, ih hl.2 fun c hc => ha c (List.mem_cons_of_mem b hc)⟩
      rintro i hi
      obtain ⟨c, hc, rfl⟩ := List.mem_map.mp hi
      rcases mem_place.mp hc with rfl | hc
      · omega
      · exact hl.1 _ (List.mem_map_of_mem hc)

/-- An object whose id is larger than all others goes to the end. -/
theorem place_eq_append {a : α} {l : List α} (ha : ∀ b ∈ l, idOf b < idOf a) :
    place a l = l ++ [a] := by
  induction l with
  | nil => rfl
  | cons b l ih =>
    have hb := ha b List.mem_cons_self
    rw [place, if_neg (by omega), ih fun c hc => ha c (List.mem_cons_of_mem b hc),
      List.cons_append]

/-- An object whose id is smaller than all others goes to the front. -/
theorem place_eq_cons {a : α} {l : List α} (ha : ∀ b ∈ l, idOf a < idOf b) :
    place a l = a :: l := by
  cases l with
  | nil => rfl
  | cons b l => rw [place, if_pos (ha b List.mem_cons_self)]

/-- An object that is not looked for may be placed anywhere. -/
theorem find?_place_of_false {f : α → Bool} {a : α} (ha : f a = false) (l : List α) :
    (place a l).find? f = l.find? f := by
  induction l with
  | nil => rw [place, List.find?_cons_of_neg (by simp [ha])]
  | cons b l ih =>
    rw [place]
    split
    · rw [List.find?_cons_of_neg (by simp [ha])]
    · rw [List.find?_cons, List.find?_cons, ih]

/-- An object that is placed is found where none was found before. -/
theorem find?_place_of_true {f : α → Bool} {a : α} (ha : f a = true) {l : List α}
    (hl : l.find? f = none) : (place a l).find? f = some a := by
  induction l with
  | nil => rw [place, List.find?_cons_of_pos ha]
  | cons b l ih =>
    have hb : ¬f b := List.find?_eq_none.mp hl b List.mem_cons_self
    rw [List.find?_cons_of_neg hb] at hl
    rw [place]
    split
    · rw [List.find?_cons_of_pos ha]
    · rw [List.find?_cons_of_neg hb, ih hl]

/-- Placing an object under a name that is not in use: a look-up finds the new object under
its name, and otherwise what it found before. -/
theorem find?_place {a : α} {l : List α} (ha : ∀ b ∈ l, nameOf b ≠ nameOf a) (key : String) :
    (place a l).find? (fun b => nameOf b == key) =
      if key = nameOf a then some a else l.find? (fun b => nameOf b == key) := by
  let hasName (b : α) : Bool := nameOf b == key
  show (place a l).find? hasName = if key = nameOf a then some a else l.find? hasName
  split
  case isTrue h =>
    have hname : hasName a = true := beq_iff_eq.mpr h.symm
    refine find?_place_of_true hname (List.find?_eq_none.mpr fun b hb heq => ?_)
    exact ha b hb ((beq_iff_eq.mp heq).trans h)
  case isFalse h =>
    have hname : hasName a = false := beq_eq_false_iff_ne.mpr (Ne.symm h)
    exact find?_place_of_false hname l

/-! ### Look-ups by name -/

theorem get?_eq_none_iff {m : ObjectMap α} {name : String} :
    m.get? name = none ↔ ∀ a ∈ m.objects, nameOf a ≠ name := by
  simp [get?, List.find?_eq_none]

/-- With unique names, the look-up by name finds every object. -/
theorem get?_of_mem {m : ObjectMap α} (hm : m.names.Nodup) {a : α} (ha : a ∈ m.objects) :
    m.get? (nameOf a) = some a := by
  unfold get? names at *
  generalize m.objects = l at hm ha
  induction l with
  | nil => exact absurd ha List.not_mem_nil
  | cons b l ih =>
    rw [List.map_cons, List.nodup_cons] at hm
    rcases List.mem_cons.mp ha with rfl | ha
    · simp
    · have hne : nameOf b ≠ nameOf a := fun e => hm.1 (e ▸ List.mem_map_of_mem ha)
      rw [List.find?_cons_of_neg (by simpa using hne), ih hm.2 ha]

theorem eq_of_name_eq {m : ObjectMap α} (hm : m.names.Nodup) {a b : α} (ha : a ∈ m.objects)
    (hb : b ∈ m.objects) (h : nameOf a = nameOf b) : a = b := by
  have := get?_of_mem hm ha
  rw [h, get?_of_mem hm hb, Option.some.injEq] at this
  exact this.symm

/-- A name that is not taken. -/
theorem contains_eq_false {m : ObjectMap α} {name : String} :
    m.contains name = false ↔ m.strays.lookup name = none ∧ m.get? name = none := by
  rw [contains, Bool.or_eq_false_iff, Option.isSome_eq_false_iff, Option.isSome_eq_false_iff,
    Option.isNone_iff_eq_none, Option.isNone_iff_eq_none]

/-- Where no name is a stray one, a name is taken when it leads to an object. -/
theorem contains_eq_isSome {m : ObjectMap α} (h : m.strays = []) (name : String) :
    m.contains name = (m.lookup? name).isSome := by
  rw [contains, lookup?, h]
  exact Bool.false_or _

/-- An object found by id is in the map and has that id. -/
theorem mem_of_getById? {m : ObjectMap α} {id : Int} {a : α} (h : m.getById? id = some a) :
    a ∈ m.objects ∧ idOf a = id :=
  ⟨List.mem_of_find?_eq_some h, by simpa using List.find?_some h⟩

/-- A name that is not stray leads to the object that has it. -/
theorem lookup?_of_not_stray {m : ObjectMap α} {name : String}
    (h : m.strays.lookup name = none) : m.lookup? name = m.get? name := by
  rw [lookup?, h]

theorem getById?_eq_none_iff {m : ObjectMap α} {id : Int} :
    m.getById? id = none ↔ ∀ a ∈ m.objects, idOf a ≠ id := by
  simp [getById?, List.find?_eq_none]

/-- With unique names, the names of objects lead to them. -/
theorem Consistent.lookup?_of_mem {m : ObjectMap α} (hm : m.Consistent) {a : α}
    (ha : a ∈ m.objects) : m.lookup? (nameOf a) = some a := by
  rw [lookup?, hm.strays a ha]
  exact get?_of_mem hm.names ha

theorem Consistent.eq_of_id_eq {m : ObjectMap α} (hm : m.Consistent) {a b : α}
    (ha : a ∈ m.objects) (hb : b ∈ m.objects) (h : idOf a = idOf b) : a = b :=
  List.inj_on_of_nodup_map hm.ids.nodup ha hb h

theorem Consistent.getById?_of_mem {m : ObjectMap α} (hm : m.Consistent) {a : α}
    (ha : a ∈ m.objects) : m.getById? (idOf a) = some a := by
  cases hb : m.getById? (idOf a) with
  | none => exact absurd rfl (getById?_eq_none_iff.mp hb a ha)
  | some b =>
    obtain ⟨hmem, hid⟩ := mem_of_getById? hb
    rw [hm.eq_of_id_eq hmem ha hid]

/-! ### What each operation does -/

theorem insert_eq_ok {m m' : ObjectMap α} {a : α} : m.insert a = .ok m' ↔
    m.contains (nameOf a) = false ∧ m.getById? (idOf a) = none ∧
      m' = { m with objects := place a m.objects, ids := m.ids.observe (idOf a) } := by
  unfold insert
  split
  case isTrue h => simp [h]
  case isFalse h =>
    rw [Bool.not_eq_true] at h
    split
    case isTrue h' => simp [h, Option.isSome_iff_ne_none.mp h']
    case isFalse h' =>
      have h₂ : m.getById? (idOf a) = none := by simpa using h'
      simp [h, h₂, eq_comm]

/-- A map takes in one more id. -/
theorem mem_ids_insert {m m' : ObjectMap α} {a : α} (h : m.insert a = .ok m') (id : Int) :
    id ∈ m'.objects.map idOf ↔ id = idOf a ∨ id ∈ m.objects.map idOf := by
  obtain ⟨-, -, rfl⟩ := insert_eq_ok.mp h
  simp only [List.mem_map, mem_place, or_and_right, exists_or, exists_eq_left]
  rw [eq_comm]

/-- The counter sees the id of the new object. -/
theorem nextId_insert {m m' : ObjectMap α} {a : α} (h : m.insert a = .ok m') :
    m'.nextId = (m.ids.observe (idOf a)).next := by
  obtain ⟨-, -, rfl⟩ := insert_eq_ok.mp h
  rfl

/-- A look-up finds the new object under its name, and otherwise what it found before. -/
theorem get?_insert {m m' : ObjectMap α} {a : α} (h : m.insert a = .ok m') (key : String) :
    m'.get? key = if key = nameOf a then some a else m.get? key := by
  obtain ⟨hname, -, rfl⟩ := insert_eq_ok.mp h
  exact find?_place (get?_eq_none_iff.mp (contains_eq_false.mp hname).2) key

/-- What was found before is found under the same name. -/
theorem get?_of_insert {m m' : ObjectMap α} {a b : α} {key : String} (h : m.insert a = .ok m')
    (hb : m.get? key = some b) : m'.get? key = some b := by
  obtain ⟨hname, -⟩ := insert_eq_ok.mp h
  have hne : key ≠ nameOf a := by
    rintro rfl
    rw [(contains_eq_false.mp hname).2] at hb
    cases hb
  rw [get?_insert h, if_neg hne, hb]

/-- An object that comes after all others goes to the end. -/
theorem insert_eq_append {m : ObjectMap α} (hm : m.strays = []) {a : α}
    (h : ∀ b ∈ m.objects, (Named.identity b).Before (Named.identity a)) : m.insert a =
      .ok { m with objects := m.objects ++ [a], ids := m.ids.observe (idOf a) } := by
  refine insert_eq_ok.mpr ⟨contains_eq_false.mpr ⟨by rw [hm]; rfl, ?_⟩, ?_, ?_⟩
  · exact get?_eq_none_iff.mpr fun b hb => (h b hb).2
  · exact getById?_eq_none_iff.mpr fun b hb => Int.ne_of_lt (h b hb).1
  · rw [place_eq_append fun b hb => (h b hb).1]

theorem mem_vacate {m : ObjectMap α} {id : Int} {a : α} :
    a ∈ (m.vacate id).objects ↔ a ∈ m.objects ∧ idOf a ≠ id := by
  rw [vacate, List.mem_filter, bne_iff_ne]

/-- Nothing leaves an id that is free. -/
theorem vacate_eq_self {m : ObjectMap α} {id : Int} (h : ∀ a ∈ m.objects, idOf a ≠ id) :
    m.vacate id = m := by
  rw [vacate, getById?_eq_none_iff.mpr h,
    List.filter_eq_self.mpr fun a ha => bne_iff_ne.mpr (h a ha)]
  rfl

/-- The names that are stray once an id is vacated. -/
theorem lookup_strays_vacate {m : ObjectMap α} {id : Int} {name : String} :
    (m.vacate id).strays.lookup name = none ↔
      m.strays.lookup name = none ∧ ∀ a, m.getById? id = some a → nameOf a ≠ name := by
  rw [vacate]
  cases m.getById? id with
  | none => simp
  | some a =>
    show List.lookup name ((nameOf a, id) :: m.strays) = none ↔ _
    rw [Assoc.lookup_cons_eq]
    split
    case isTrue h => simp [h]
    case isFalse h => simp [Ne.symm h]

theorem isSome_strays_vacate {m : ObjectMap α} {id : Int} {key : String}
    (hkey : (m.strays.lookup key).isSome) : ((m.vacate id).strays.lookup key).isSome := by
  rw [Option.isSome_iff_ne_none] at hkey ⊢
  exact fun hnone => hkey (lookup_strays_vacate.mp hnone).1

/-- No name goes astray: no name was stray, and the id was free. -/
theorem strays_vacate_eq_nil {m : ObjectMap α} {id : Int} :
    (m.vacate id).strays = [] ↔ m.strays = [] ∧ m.getById? id = none := by
  rw [vacate, List.append_eq_nil_iff, List.map_eq_nil_iff, and_comm]
  cases m.getById? id <;> simp

theorem insertNew_eq_ok {m m' : ObjectMap α} {name : String} {build : Int → α} :
    m.insertNew name build = .ok m' ↔ m.contains name = false ∧
      m' = { m.vacate m.ids.next with
        objects := place (build m.ids.next) (m.vacate m.ids.next).objects
        ids := m.ids.bump } := by
  unfold insertNew
  split
  case isTrue h => simp [h]
  case isFalse h =>
    rw [Bool.not_eq_true] at h
    simp [h, eq_comm, vacate]

/-- A new object is added, and one that has its id leaves. -/
theorem mem_insertNew {m m' : ObjectMap α} {name : String} {build : Int → α}
    (h : m.insertNew name build = .ok m') {a : α} :
    a ∈ m'.objects ↔ a = build m.ids.next ∨ a ∈ m.objects ∧ idOf a ≠ m.ids.next := by
  obtain ⟨-, rfl⟩ := insertNew_eq_ok.mp h
  rw [mem_place, mem_vacate]

/-- No name goes astray when an object is added: no name was stray, and the new id was free. -/
theorem strays_insertNew_eq_nil {m m' : ObjectMap α} {name : String} {build : Int → α}
    (h : m.insertNew name build = .ok m') :
    m'.strays = [] ↔ m.strays = [] ∧ ∀ a ∈ m.objects, idOf a ≠ m.ids.next := by
  obtain ⟨-, rfl⟩ := insertNew_eq_ok.mp h
  exact strays_vacate_eq_nil.trans (and_congr_right fun _ => getById?_eq_none_iff)

/-- Where the new id is free, a new object is added to the others. -/
theorem insertNew_of_free {m m' : ObjectMap α} {name : String} {build : Int → α}
    (h : m.insertNew name build = .ok m') (hfree : ∀ a ∈ m.objects, idOf a ≠ m.ids.next) :
    m' = { m with objects := place (build m.ids.next) m.objects, ids := m.ids.bump } := by
  obtain ⟨-, rfl⟩ := insertNew_eq_ok.mp h
  rw [vacate_eq_self hfree]

theorem mem_modify {m : ObjectMap α} {name : String} {f : α → α} {b : α} :
    b ∈ (m.modify name f).objects ↔
      ∃ a ∈ m.objects, b = if nameOf a = name then f a else a := by
  simp only [modify, List.mem_map, beq_iff_eq]
  constructor <;> rintro ⟨a, ha, rfl⟩ <;> exact ⟨a, ha, rfl⟩

theorem names_modify {m : ObjectMap α} {name : String} {f : α → α}
    (hf : ∀ a, nameOf a = name → nameOf (f a) = name) : (m.modify name f).names = m.names := by
  rw [names, modify, List.map_map]
  refine List.map_congr_left fun a _ => ?_
  rw [Function.comp_apply]
  by_cases h : nameOf a = name
  · simp [h, hf a h]
  · simp [h]

theorem ids_modify {m : ObjectMap α} {name : String} {f : α → α}
    (hf : ∀ a ∈ m.objects, nameOf a = name → idOf (f a) = idOf a) :
    (m.modify name f).objects.map idOf = m.objects.map idOf := by
  rw [modify, List.map_map]
  refine List.map_congr_left fun a ha => ?_
  rw [Function.comp_apply]
  by_cases h : nameOf a = name
  · simp [h, hf a ha h]
  · simp [h]

/-- Where names are unique, a change of one object leaves the ones around it as they are. -/
theorem objects_modify_append {m : ObjectMap α} (hm : m.names.Nodup) {l₁ l₂ : List α} {a : α}
    (h : m.objects = l₁ ++ a :: l₂) (f : α → α) :
    (m.modify (nameOf a) f).objects = l₁ ++ f a :: l₂ := by
  rw [names, h, List.map_append, List.map_cons, List.nodup_middle, List.nodup_cons,
    List.mem_append, not_or] at hm
  have hkeep : ∀ l : List α, nameOf a ∉ l.map nameOf →
      (l.map fun b => if nameOf b == nameOf a then f b else b) = l := by
    intro l hl
    refine (List.map_congr_left fun b hb => if_neg ?_).trans (List.map_id' l)
    exact fun heq => hl (beq_iff_eq.mp heq ▸ List.mem_map_of_mem hb)
  rw [modify, h, List.map_append, List.map_cons, hkeep l₁ hm.1.1, hkeep l₂ hm.1.2,
    if_pos (beq_self_eq_true _)]

/-- A look-up finds the changed object under its name, and otherwise what it found before. -/
theorem get?_modify {m : ObjectMap α} {name : String} {f : α → α}
    (hf : ∀ a, nameOf a = name → nameOf (f a) = name) (key : String) :
    (m.modify name f).get? key = if key = name then (m.get? name).map f else m.get? key := by
  unfold modify get?
  generalize m.objects = l
  induction l with
  | nil => simp
  | cons a l ih =>
    dsimp only at ih
    rw [List.map_cons]
    -- whether the object in front has the name, and whether it is the one looked for
    by_cases h : nameOf a = name
    · rw [if_pos (by simp [h])]
      by_cases hk : key = name
      · rw [List.find?_cons_of_pos (by simp [hk, hf a h]), if_pos hk,
          List.find?_cons_of_pos (by simp [h]), Option.map_some]
      · have hk' : name ≠ key := Ne.symm hk
        rw [List.find?_cons_of_neg (by simp [hf a h, hk']), ih, if_neg hk, if_neg hk,
          List.find?_cons_of_neg (by simp [h, hk'])]
    · rw [if_neg (by simp [h])]
      by_cases hk : key = name
      · rw [List.find?_cons_of_neg (by simp [hk, h]), ih, if_pos hk, if_pos hk,
          List.find?_cons_of_neg (by simp [h])]
      · rw [List.find?_cons, ih, if_neg hk, if_neg hk, List.find?_cons]

/-- The objects that names lead to, after a change of the one called `name`. -/
theorem lookup?_modify {m : ObjectMap α} {name : String} {f : α → α}
    (hname : ∀ a, nameOf a = name → nameOf (f a) = name)
    (hid : ∀ a ∈ m.objects, nameOf a = name → idOf (f a) = idOf a) (key : String) :
    (m.modify name f).lookup? key =
      (m.lookup? key).map fun a => if nameOf a = name then f a else a := by
  have hby : ∀ id, (m.modify name f).getById? id =
      (m.getById? id).map fun a => if nameOf a = name then f a else a := by
    intro id
    unfold modify getById?
    generalize hl : m.objects = l at hid
    clear hl
    induction l with
    | nil => rfl
    | cons a l ih =>
      have ih' := ih fun b hb => hid b (List.mem_cons_of_mem a hb)
      have heq : idOf (if nameOf a == name then f a else a) = idOf a := by
        split
        case isTrue h => exact hid a List.mem_cons_self (beq_iff_eq.mp h)
        case isFalse => rfl
      dsimp only at ih'
      rw [List.map_cons]
      by_cases h : idOf a = id
      · rw [List.find?_cons_of_pos (by rw [heq, h, beq_self_eq_true]),
          List.find?_cons_of_pos (by rw [h, beq_self_eq_true]), Option.map_some]
        simp only [beq_iff_eq]
      · rw [List.find?_cons_of_neg (by rw [heq]; simpa using h),
          List.find?_cons_of_neg (by simpa using h), ih']
  have hstrays : (m.modify name f).strays = m.strays := rfl
  rw [lookup?, lookup?, hstrays]
  cases m.strays.lookup key with
  | some id => exact hby id
  | none =>
    dsimp only
    rw [get?_modify hname]
    split
    case isTrue h =>
      subst h
      cases ha : m.get? key with
      | none => rfl
      | some a => rw [Option.map_some, Option.map_some, if_pos (mem_of_get? ha).2]
    case isFalse h =>
      cases ha : m.get? key with
      | none => rfl
      | some a => rw [Option.map_some, if_neg fun heq => h ((mem_of_get? ha).2.symm.trans heq)]

/-- A change of the object that a name leads to is a change of that object. -/
theorem alter_eq {m : ObjectMap α} {name : String} {a : α} (h : m.lookup? name = some a)
    (f : α → α) : m.alter name f = m.modify (nameOf a) f := by
  rw [alter, h]

@[simp] theorem ids_alter (m : ObjectMap α) (name : String) (f : α → α) :
    (m.alter name f).ids = m.ids := by
  unfold alter
  split <;> rfl

/-- Where the new id is free, a look-up finds the new object under its name, and otherwise what it
found before. -/
theorem lookup?_insertNew {m m' : ObjectMap α} {name : String} {build : Int → α}
    (hname : ∀ id, nameOf (build id) = name) (h : m.insertNew name build = .ok m')
    (hstrays : m'.strays = []) (key : String) :
    m'.lookup? key = if key = name then some (build m.ids.next) else m.lookup? key := by
  obtain ⟨hnil, hfree⟩ := (strays_insertNew_eq_nil h).mp hstrays
  obtain ⟨hcontains, -⟩ := insertNew_eq_ok.mp h
  have hne : ∀ b ∈ m.objects, nameOf b ≠ nameOf (build m.ids.next) := by
    rw [hname]
    exact get?_eq_none_iff.mp (contains_eq_false.mp hcontains).2
  have hplace := find?_place hne key
  rw [lookup?_eq_get? hstrays, lookup?_eq_get? hnil, insertNew_of_free h hfree]
  rwa [hname] at hplace

/-- What is removed from a map without stray names. -/
theorem remove_eq {m : ObjectMap α} (h : m.strays = []) (name : String) :
    m.remove name = { m with objects := m.objects.filter fun a => nameOf a != name } := by
  rw [remove, h]
  rfl

/-- A name that is not taken cannot be given up. -/
theorem remove_of_not_contains {m : ObjectMap α} {name : String} (h : m.contains name = false) :
    m.remove name = m := by
  obtain ⟨hstray, hget⟩ := contains_eq_false.mp h
  rw [remove, hstray]
  dsimp only
  rw [List.filter_eq_self.mpr fun a ha => bne_iff_ne.mpr (get?_eq_none_iff.mp hget a ha)]

/-- Removing adds no object. -/
theorem mem_of_mem_remove {m : ObjectMap α} {name : String} {a : α}
    (h : a ∈ (m.remove name).objects) : a ∈ m.objects := by
  unfold remove at h
  split at h
  · exact (mem_vacate.mp h).1
  · exact (List.mem_filter.mp h).1

/-- The object that a name leads to is taken out with the name. -/
theorem Consistent.objects_remove {m : ObjectMap α} (hm : m.Consistent) {name : String} {a : α}
    (ha : m.lookup? name = some a) :
    (m.remove name).objects = m.objects.filter fun b => nameOf b != nameOf a := by
  unfold lookup? at ha
  unfold remove
  split at ha
  case h_1 id hid =>
    obtain ⟨hmem, rfl⟩ := mem_of_getById? ha
    refine List.filter_congr fun b hb => ?_
    rw [Bool.eq_iff_iff, bne_iff_ne, bne_iff_ne]
    exact not_congr ⟨fun h => congrArg nameOf (hm.eq_of_id_eq hb hmem h),
      fun h => congrArg idOf (eq_of_name_eq hm.names hb hmem h)⟩
  case h_2 hnone => rw [(mem_of_get? ha).2]

@[simp] theorem ids_remove (m : ObjectMap α) (name : String) : (m.remove name).ids = m.ids := by
  unfold remove
  split <;> rfl

/-- A name whose object can be removed without a stray name being left is not stray. -/
theorem strays_remove_eq_nil {m : ObjectMap α} {name : String} {a : α}
    (ha : m.lookup? name = some a) (h : (m.remove name).strays = []) : m.strays = [] := by
  unfold remove at h
  split at h
  case h_1 id hid =>
    rw [lookup?, hid] at ha
    have hnone := (strays_vacate_eq_nil.mp h).2
    have hsome : m.getById? id = some a := ha
    rw [show ObjectMap.getById? { m with strays := Assoc.erase name m.strays } id = m.getById? id
      from rfl, hsome] at hnone
    cases hnone
  case h_2 => exact h

/-- Without the object of a name, the name leads nowhere, and the others lead where they did
before. -/
theorem get?_filter_ne (m : ObjectMap α) (name key : String) :
    ObjectMap.get? { m with objects := m.objects.filter fun a => nameOf a != name } key =
      if key = name then none else m.get? key := by
  unfold get?
  dsimp only
  rw [List.find?_filter]
  split
  case isTrue hkey =>
    subst hkey
    exact List.find?_eq_none.mpr fun a _ => by simp
  case isFalse hkey =>
    refine List.find?_congr fun a _ => ?_
    by_cases ha : nameOf a = key
    · simp [ha, hkey]
    · simp [ha]

/-- A removed name leads nowhere, and the others lead where they did before. -/
theorem lookup?_remove {m : ObjectMap α} (h : m.strays = []) (name key : String) :
    (m.remove name).lookup? key = if key = name then none else m.lookup? key := by
  rw [remove_eq h, lookup?_eq_get? h, lookup?_eq_get? (by exact h)]
  exact m.get?_filter_ne name key

/-! ### The invariant -/

namespace Consistent

theorem empty : (ObjectMap.empty : ObjectMap α).Consistent where
  names := List.nodup_nil
  ids := List.Pairwise.nil
  strays := by simp

/-- The objects are listed one after the other. -/
theorem before {m : ObjectMap α} (hm : m.Consistent) :
    (m.objects.map Named.identity).Pairwise Identity.Before := by
  have hnames := List.pairwise_map.mp hm.names
  have hids := List.pairwise_map.mp hm.ids
  exact List.pairwise_map.mpr (hids.and hnames)

/-- An object is placed among others under a name that is not taken and an id that is free. -/
theorem placed {m m' : ObjectMap α} (hm : m.Consistent) {a : α}
    (hname : m.contains (nameOf a) = false) (hid : ∀ b ∈ m.objects, idOf b ≠ idOf a)
    (hobjects : m'.objects = place a m.objects) (hstrays : m'.strays = m.strays) :
    m'.Consistent := by
  obtain ⟨hstray, hget⟩ := contains_eq_false.mp hname
  refine ⟨?_, hobjects ▸ pairwise_place hm.ids hid, fun b hb => ?_⟩
  · rw [ObjectMap.names, hobjects]
    refine ((perm_place a m.objects).map nameOf).nodup_iff.mpr ?_
    rw [List.map_cons, List.nodup_cons, List.mem_map]
    refine ⟨?_, hm.names⟩
    rintro ⟨b, hb, he⟩
    exact get?_eq_none_iff.mp hget b hb he
  · rw [hstrays]
    rcases mem_place.mp (hobjects ▸ hb) with rfl | hb
    · exact hstray
    · exact hm.strays b hb

theorem insert {m m' : ObjectMap α} (hm : m.Consistent) {a : α} (h : m.insert a = .ok m') :
    m'.Consistent := by
  obtain ⟨hname, hid, rfl⟩ := insert_eq_ok.mp h
  exact hm.placed hname (getById?_eq_none_iff.mp hid) rfl rfl

/-- Vacating an id takes names out together with their object. -/
theorem vacate {m : ObjectMap α} (hm : m.Consistent) (id : Int) : (m.vacate id).Consistent where
  names := hm.names.sublist (List.filter_sublist.map nameOf)
  ids := hm.ids.sublist (List.filter_sublist.map idOf)
  strays a ha := by
    obtain ⟨hmem, hne⟩ := mem_vacate.mp ha
    refine lookup_strays_vacate.mpr ⟨hm.strays a hmem, fun b hb heq => hne ?_⟩
    obtain ⟨hb', hid⟩ := mem_of_getById? hb
    rw [← eq_of_name_eq hm.names hb' hmem heq, hid]

theorem insertNew {m m' : ObjectMap α} (hm : m.Consistent) {name : String} {build : Int → α}
    (hname : ∀ id, nameOf (build id) = name) (hid : ∀ id, idOf (build id) = id)
    (h : m.insertNew name build = .ok m') : m'.Consistent := by
  obtain ⟨hfree, rfl⟩ := insertNew_eq_ok.mp h
  obtain ⟨hstray, hget⟩ := contains_eq_false.mp hfree
  -- the name of an object that leaves is another one, as the new name is not taken
  have hcontains : (m.vacate m.ids.next).contains (nameOf (build m.ids.next)) = false := by
    rw [hname]
    refine contains_eq_false.mpr ⟨lookup_strays_vacate.mpr ⟨hstray, fun a ha => ?_⟩, ?_⟩
    · exact get?_eq_none_iff.mp hget a (mem_of_getById? ha).1
    · exact get?_eq_none_iff.mpr fun a ha => get?_eq_none_iff.mp hget a (mem_vacate.mp ha).1
  refine (hm.vacate m.ids.next).placed hcontains (fun b hb => ?_) rfl rfl
  rw [hid]
  exact (mem_vacate.mp hb).2

theorem modify {m : ObjectMap α} (hm : m.Consistent) {name : String} {f : α → α}
    (hname : ∀ a, nameOf a = name → nameOf (f a) = name)
    (hid : ∀ a ∈ m.objects, nameOf a = name → idOf (f a) = idOf a) :
    (m.modify name f).Consistent := by
  refine ⟨by rw [names_modify hname]; exact hm.names, by rw [ids_modify hid]; exact hm.ids, ?_⟩
  intro b hb
  obtain ⟨a, ha, rfl⟩ := mem_modify.mp hb
  split
  case isTrue h => exact (hname a h).symm ▸ h ▸ hm.strays a ha
  case isFalse h => exact hm.strays a ha

theorem remove {m : ObjectMap α} (hm : m.Consistent) (name : String) :
    (m.remove name).Consistent := by
  unfold ObjectMap.remove
  split
  case h_1 id _ =>
    refine Consistent.vacate (m := { m with strays := Assoc.erase name m.strays })
      ⟨hm.names, hm.ids, fun a ha => ?_⟩ id
    rw [Assoc.lookup_erase]
    split
    · rfl
    · exact hm.strays a ha
  case h_2 =>
    exact ⟨hm.names.sublist (List.filter_sublist.map nameOf),
      hm.ids.sublist (List.filter_sublist.map idOf),
      fun a ha => hm.strays a (List.mem_filter.mp ha).1⟩

end Consistent

/-! ### Names that are taken -/

/-- The id that a name leads to. -/
def idUnder? (m : ObjectMap α) (name : String) : Option Int :=
  match m.strays.lookup name with
  | some id => some id
  | none => (m.get? name).map idOf

theorem idUnder?_of_stray {m : ObjectMap α} {name : String} {id : Int}
    (h : m.strays.lookup name = some id) : m.idUnder? name = some id := by
  rw [idUnder?, h]

theorem idUnder?_of_not_stray {m : ObjectMap α} {name : String}
    (h : m.strays.lookup name = none) : m.idUnder? name = (m.get? name).map idOf := by
  rw [idUnder?, h]

theorem isSome_idUnder? (m : ObjectMap α) (name : String) :
    (m.idUnder? name).isSome = m.contains name := by
  rw [idUnder?, contains]
  cases m.strays.lookup name with
  | some id => rfl
  | none => exact Option.isSome_map

/-- Names lead to objects through their ids. -/
theorem Consistent.lookup?_eq {m : ObjectMap α} (hm : m.Consistent) (name : String) :
    m.lookup? name = (m.idUnder? name).bind m.getById? := by
  rw [lookup?, idUnder?]
  cases m.strays.lookup name with
  | some id => rfl
  | none =>
    cases ha : m.get? name with
    | none => rfl
    | some a => exact (hm.getById?_of_mem (mem_of_get? ha).1).symm

/-- Vacating an id leaves all names as they are. -/
theorem Consistent.idUnder?_vacate {m : ObjectMap α} (hm : m.Consistent) (id : Int)
    (name : String) : (m.vacate id).idUnder? name = m.idUnder? name := by
  cases hb : m.getById? id with
  | none => rw [vacate_eq_self (getById?_eq_none_iff.mp hb)]
  | some b =>
    obtain ⟨hmem, rfl⟩ := mem_of_getById? hb
    have hstrays : (m.vacate (idOf b)).strays = (nameOf b, idOf b) :: m.strays := by
      rw [ObjectMap.vacate, hb]
      rfl
    by_cases hname : name = nameOf b
    · subst hname
      rw [idUnder?_of_not_stray (hm.strays b hmem), get?_of_mem hm.names hmem]
      exact idUnder?_of_stray (by rw [hstrays, Assoc.lookup_cons_eq, if_pos rfl])
    · have hget : (m.vacate (idOf b)).get? name = m.get? name := by
        rw [get?, get?, ObjectMap.vacate, List.find?_filter]
        refine List.find?_congr fun a ha => ?_
        -- only the object that leaves has its id, and it has another name
        have hne : nameOf a = name → idOf a ≠ idOf b := by
          rintro rfl hid
          exact hname (congrArg nameOf (hm.eq_of_id_eq ha hmem hid))
        by_cases h : nameOf a = name
        · simp [h, hne h]
        · simp [h]
      rw [idUnder?, idUnder?, hget, hstrays, Assoc.lookup_cons_eq, if_neg hname]

/-- A new object takes its name, and all others stay taken. -/
theorem Consistent.contains_insertNew {m m' : ObjectMap α} (hm : m.Consistent) {name : String}
    {build : Int → α} (hname : ∀ id, nameOf (build id) = name)
    (h : m.insertNew name build = .ok m') (key : String) :
    m'.contains key = true ↔ key = name ∨ m.contains key = true := by
  have hvacate : (m.vacate m.ids.next).contains key = m.contains key := by
    rw [← isSome_idUnder?, hm.idUnder?_vacate, isSome_idUnder?]
  obtain ⟨hfree, rfl⟩ := insertNew_eq_ok.mp h
  have hne := get?_eq_none_iff.mp (contains_eq_false.mp hfree).2
  have hplace := find?_place (a := build m.ids.next) (l := (m.vacate m.ids.next).objects)
    (fun b hb => by rw [hname]; exact hne b (mem_vacate.mp hb).1) key
  rw [hname] at hplace
  rw [← hvacate, contains, contains, get?, hplace]
  by_cases hkey : key = name
  · simp [hkey]
  · rw [if_neg hkey, get?]
    simp [hkey]

/-- A name that is given up is free, and all others stay taken. -/
theorem Consistent.contains_remove {m : ObjectMap α} (hm : m.Consistent) (name key : String) :
    (m.remove name).contains key = true ↔ key ≠ name ∧ m.contains key = true := by
  unfold ObjectMap.remove
  split
  case h_1 id hstray =>
    have hm' : ObjectMap.Consistent { m with strays := Assoc.erase name m.strays } :=
      ⟨hm.names, hm.ids, fun a ha => by
        rw [Assoc.lookup_erase]
        split
        · rfl
        · exact hm.strays a ha⟩
    rw [← isSome_idUnder?, hm'.idUnder?_vacate, isSome_idUnder?, contains, contains,
      Assoc.lookup_erase]
    by_cases hkey : key = name
    · -- no object has a stray name
      have hnone : m.get? name = none := by
        refine get?_eq_none_iff.mpr fun a ha heq => ?_
        rw [← heq, hm.strays a ha] at hstray
        cases hstray
      have hnone' : ObjectMap.get? { m with strays := Assoc.erase name m.strays } name = none :=
        hnone
      simp [hkey, hnone']
    · rw [if_neg hkey]
      exact (and_iff_right hkey).symm
  case h_2 hstray =>
    rw [contains, contains, get?_filter_ne]
    by_cases hkey : key = name
    · simp [hkey, hstray]
    · simp [hkey]

/-- A change of an object leaves all names as they are. -/
theorem contains_alter {m : ObjectMap α} {name : String} {f : α → α}
    (hf : ∀ a, m.lookup? name = some a → ∀ b, nameOf b = nameOf a → nameOf (f b) = nameOf a)
    (key : String) : (m.alter name f).contains key = m.contains key := by
  rw [alter]
  cases ha : m.lookup? name with
  | none => rfl
  | some a =>
    dsimp only
    rw [contains, contains, get?_modify (hf a ha)]
    split
    case isTrue hkey => rw [Option.isSome_map, hkey]; rfl
    case isFalse => rfl

/-- A name that is given up leads nowhere. -/
theorem Consistent.lookup?_remove_self {m : ObjectMap α} (hm : m.Consistent) (name : String) :
    (m.remove name).lookup? name = none ∧ (m.remove name).strays.lookup name = none := by
  have hcontains : (m.remove name).contains name = false := by
    rw [← Bool.not_eq_true, hm.contains_remove]
    exact fun h => h.1 rfl
  obtain ⟨hstray, hget⟩ := contains_eq_false.mp hcontains
  exact ⟨(lookup?_of_not_stray hstray).trans hget, hstray⟩

/-- A stray name stays so when an object is added. -/
theorem isSome_strays_insertNew {m m' : ObjectMap α} {name : String} {build : Int → α}
    (h : m.insertNew name build = .ok m') {key : String}
    (hkey : (m.strays.lookup key).isSome) : (m'.strays.lookup key).isSome := by
  obtain ⟨-, rfl⟩ := insertNew_eq_ok.mp h
  exact isSome_strays_vacate hkey

/-- An object whose name does not go astray stays when another one is added. -/
theorem Consistent.mem_insertNew {m m' : ObjectMap α} (hm : m.Consistent) {name : String}
    {build : Int → α} (h : m.insertNew name build = .ok m') {a : α} (ha : a ∈ m.objects)
    (hstray : m'.strays.lookup (nameOf a) = none) : a ∈ m'.objects := by
  refine (ObjectMap.mem_insertNew h).mpr (Or.inr ⟨ha, fun hid => ?_⟩)
  obtain ⟨-, rfl⟩ := insertNew_eq_ok.mp h
  exact (lookup_strays_vacate.mp hstray).2 a (hid ▸ hm.getById?_of_mem ha) rfl

/-- So does one when a name is given up that is another one. -/
theorem Consistent.mem_remove {m : ObjectMap α} (hm : m.Consistent) {name : String} {a : α}
    (ha : a ∈ m.objects) (hne : nameOf a ≠ name)
    (hstray : (m.remove name).strays.lookup (nameOf a) = none) : a ∈ (m.remove name).objects := by
  unfold ObjectMap.remove at hstray ⊢
  split at hstray
  case h_1 id hid =>
    refine mem_vacate.mpr ⟨ha, fun heq => ?_⟩
    exact (lookup_strays_vacate.mp hstray).2 a (heq ▸ hm.getById?_of_mem ha) rfl
  case h_2 => exact List.mem_filter.mpr ⟨ha, bne_iff_ne.mpr hne⟩

/-- A stray name stays so when another one is given up. -/
theorem isSome_strays_remove {m : ObjectMap α} {name key : String} (hne : key ≠ name)
    (hkey : (m.strays.lookup key).isSome) : ((m.remove name).strays.lookup key).isSome := by
  unfold ObjectMap.remove
  split
  case h_1 =>
    refine isSome_strays_vacate ?_
    rwa [Assoc.lookup_erase, if_neg hne]
  case h_2 => exact hkey

/-! ### The counter -/

namespace Ahead

/-- The next id is free. -/
theorem free {m : ObjectMap α} (hm : m.Ahead) : ∀ a ∈ m.objects, idOf a ≠ m.ids.next :=
  fun a ha => Int.ne_of_lt (hm a ha)

theorem insert {m m' : ObjectMap α} (hm : m.Ahead) {a : α} (h : m.insert a = .ok m')
    (ha : idOf a < maxId) : m'.Ahead := by
  obtain ⟨-, -, rfl⟩ := insert_eq_ok.mp h
  intro b hb
  rcases mem_place.mp hb with rfl | hb
  · exact m.ids.lt_observe ha
  · exact Int.lt_of_lt_of_le (hm b hb) (m.ids.le_observe ha)

end Ahead

end ObjectMap

end LiveSwitch
