import LiveSwitch.Proofs.Document.Loading
import LiveSwitch.Proofs.Plan.NodeEdits
import LiveSwitch.Proofs.Register.Storage

/-!
# Where the arrays of a program lie

No edit touches a storage that is there.  The arrays of an edited program lie where arrays
of the same name lay before, or in storages that were added since, and the loader puts every
array of a document into a storage of its own.  Only a commit changes storages, and only
those of the arrays that it commits.

## Main definitions

* `RegisterArray.Bounded` — arrays lie in storages that are there.
* `RegisterArray.ApartByName` — arrays that share a storage share their name.
* `RegisterArray.Grows` — what a list of edits may do to arrays and storages.
* `RegisterArray.Fresh` — what loading gives.

## Main results

* `Edit.arrays_of_onNodes` — edits of nodes leave arrays and storages alone.
* `Edit.strays_run` — no edit brings a name back that has gone astray.
* `Edit.grows`, `Edit.grows_foldlM` — every edit, and every list of edits, grows a program.
* `Program.ofDocument_fresh` — the arrays of a document lie in storages of their own.
* `Program.get_commitAll` — a commit leaves the storages of other arrays alone.
-/

namespace LiveSwitch

namespace RegisterArray

/-- Arrays lie in storages that are there. -/
def Bounded (l : List RegisterArray) (s : Store) : Prop := ∀ a ∈ l, a.storage < s.size

/-- Arrays that share a storage share their name. -/
def ApartByName (l : List RegisterArray) : Prop :=
  ∀ a ∈ l, ∀ b ∈ l, a.storage = b.storage → nameOf a = nameOf b

/-- From some arrays over a store to others over a later one: storages are only added, and
every array lies where one of its name lay before or in an added storage, which no other name
shares. -/
structure Grows (l : List RegisterArray) (s : Store) (l' : List RegisterArray) (s' : Store) :
    Prop where
  store : s.Extends s'
  bounded : Bounded l' s'
  origin : ∀ a ∈ l', (∃ b ∈ l, b.storage = a.storage ∧ nameOf b = nameOf a) ∨
    s.size ≤ a.storage
  apart : ∀ a ∈ l', ∀ b ∈ l', a.storage = b.storage → s.size ≤ a.storage → nameOf a = nameOf b

namespace Grows

variable {l l' l'' : List RegisterArray} {s s' s'' : Store}

/-- Arrays that lie where arrays of their name lay, over the storages as they were. -/
theorem of_kept (hl : Bounded l s)
    (h : ∀ a ∈ l', ∃ b ∈ l, b.storage = a.storage ∧ nameOf b = nameOf a) : Grows l s l' s := by
  have hbounded : Bounded l' s := by
    intro a ha
    obtain ⟨b, hb, hst, -⟩ := h a ha
    exact hst ▸ hl b hb
  refine ⟨Store.Extends.refl s, hbounded, fun a ha => Or.inl (h a ha), ?_⟩
  intro a ha _ _ _ hle
  exact absurd (hbounded a ha) (Nat.not_lt.mpr hle)

theorem refl (hl : Bounded l s) : Grows l s l s := of_kept hl fun a ha => ⟨a, ha, rfl, rfl⟩

theorem trans (h : Grows l s l' s') (h' : Grows l' s' l'' s'') : Grows l s l'' s'' where
  store := h.store.trans h'.store
  bounded := h'.bounded
  origin a ha := by
    rcases h'.origin a ha with ⟨b, hb, hst, hname⟩ | hle
    · rcases h.origin b hb with ⟨c, hc, hst', hname'⟩ | hle
      · exact Or.inl ⟨c, hc, hst'.trans hst, hname'.trans hname⟩
      · exact Or.inr (hst ▸ hle)
    · exact Or.inr (Nat.le_trans h.store.size_le hle)
  apart a ha b hb heq hle := by
    -- arrays over one storage were both there already, or the storage was added later
    rcases h'.origin a ha with ⟨a', ha', hst, hname⟩ | hle'
    · rcases h'.origin b hb with ⟨b', hb', hst', hname'⟩ | hle'
      · have := h.apart a' ha' b' hb' (by rw [hst, hst', heq]) (hst ▸ hle)
        rw [← hname, ← hname', this]
      · exact h'.apart a ha b hb heq (heq ▸ hle')
    · exact h'.apart a ha b hb heq hle'

/-- At most one array is new, and it lies in a storage that was just added. -/
theorem add (hl : Bounded l s) (st : Storage) {a : RegisterArray} (ha : a.storage = s.size)
    (h : ∀ b ∈ l', b = a ∨ b ∈ l) : Grows l s l' (s.add st) where
  store := s.extends_add st
  bounded b hb := by
    rw [Store.size_add]
    rcases h b hb with rfl | hb
    · omega
    · exact Nat.lt_succ_of_lt (hl b hb)
  origin b hb := by
    rcases h b hb with rfl | hb
    · exact Or.inr (Nat.le_of_eq ha.symm)
    · exact Or.inl ⟨b, hb, rfl, rfl⟩
  apart b hb c hc heq hle := by
    have hnew : ∀ d ∈ l', s.size ≤ d.storage → d = a := by
      intro d hd hle
      rcases h d hd with rfl | hd
      · rfl
      · exact absurd (hl d hd) (Nat.not_lt.mpr hle)
    rw [hnew b hb hle, hnew c hc (heq ▸ hle)]

/-- Arrays that grew from arrays that lay apart lie apart. -/
theorem apartByName (h : Grows l s l' s') (hl : Bounded l s) (hapart : ApartByName l) :
    ApartByName l' := by
  intro a ha b hb heq
  rcases h.origin a ha with ⟨a', ha', hst, hname⟩ | hle
  · rcases h.origin b hb with ⟨b', hb', hst', hname'⟩ | hle
    · rw [← hname, ← hname']
      exact hapart a' ha' b' hb' (by rw [hst, hst', heq])
    · -- a storage of before is none that was added
      have := hl a' ha'
      omega
  · exact h.apart a ha b hb heq hle

end Grows

end RegisterArray

open RegisterArray

/-! ### Edits of arrays -/

namespace Program

variable {g g' : Program} {s s' : Store} {name : String}

theorem mem_of_array? {a : RegisterArray} (h : g.array? name = some a) : a ∈ g.arrays.objects :=
  ObjectMap.mem_of_lookup? h

/-- The array that a name leads to gives way to another one, under its own name. -/
theorem setArray_eq {a : RegisterArray} (h : g.array? name = some a) (a' : RegisterArray) :
    g.setArray name a' = { g with arrays := g.arrays.modify (nameOf a) fun _ => a' } := by
  rw [setArray, ObjectMap.alter_eq h]

theorem mem_setArray {a a' b : RegisterArray} (h : g.array? name = some a) :
    b ∈ (g.setArray name a').arrays.objects ↔
      ∃ c ∈ g.arrays.objects, b = if nameOf c = nameOf a then a' else c := by
  rw [setArray_eq h]
  exact ObjectMap.mem_modify

/-- An array that takes the place of another one is the only new one. -/
theorem mem_of_mem_setArray {a b : RegisterArray} (h : b ∈ (g.setArray name a).arrays.objects) :
    b = a ∨ b ∈ g.arrays.objects := by
  cases hc : g.array? name with
  | none =>
    rw [setArray, ObjectMap.alter, show g.arrays.lookup? name = none from hc] at h
    exact Or.inr h
  | some c =>
    obtain ⟨d, hd, rfl⟩ := (mem_setArray hc).mp h
    split
    · exact Or.inl rfl
    · exact Or.inr hd

@[simp] theorem strays_setArray (g : Program) (name : String) (a : RegisterArray) :
    (g.setArray name a).arrays.strays = g.arrays.strays := by
  unfold setArray ObjectMap.alter
  dsimp only
  split <;> rfl

/-- Names lead to the arrays that they led to, up to the one that gave way. -/
theorem array?_setArray (hg : g.arrays.Consistent) {a b : RegisterArray}
    (hb : g.array? name = some b) (ha : a.identity = b.identity) (x : String) :
    (g.setArray name a).array? x =
      (g.array? x).map fun c => if nameOf c = nameOf b then a else c := by
  rw [setArray_eq hb]
  refine ObjectMap.lookup?_modify (fun _ _ => congrArg Identity.name ha) (fun c hc hname => ?_) x
  rw [ObjectMap.eq_of_name_eq hg.names hc (mem_of_array? hb) hname]
  exact congrArg Identity.id ha

/-- The array to be cleared may be the one that was just made, and has the same identity. -/
theorem exists_reset (hg : g.arrays.Consistent) {target reset a : RegisterArray} {x y : String}
    (ht : g.array? x = some target) (hr : g.array? y = some reset)
    (ha : a.identity = target.identity) :
    ∃ b, (g.setArray x a).array? y = some b ∧ b.identity = reset.identity := by
  rw [array?_setArray hg ht ha, hr, Option.map_some]
  refine ⟨_, rfl, ?_⟩
  split
  case isTrue hname =>
    rw [ha, ObjectMap.eq_of_name_eq hg.names (mem_of_array? hr) (mem_of_array? ht) hname]
  case isFalse => rfl

/-- Without stray names, an array has the name that leads to it. -/
theorem nameOf_array? (hstrays : g.arrays.strays = []) {a : RegisterArray}
    (ha : g.array? name = some a) : nameOf a = name := by
  rw [array?, ObjectMap.lookup?_eq_get? hstrays] at ha
  exact (ObjectMap.mem_of_get? ha).2

/-- Without stray names, a look-up by name after an array was put in the place of another. -/
theorem array?_setArray_eq_ite (hstrays : g.arrays.strays = []) {a b : RegisterArray}
    (hb : g.array? name = some b) (ha : nameOf a = name) (x : String) :
    (g.setArray name a).array? x = if x = name then some a else g.array? x := by
  have hget : g.arrays.get? name = some b := by
    rwa [Program.array?, ObjectMap.lookup?_eq_get? hstrays] at hb
  have hmodify : (g.arrays.modify name fun _ => a).get? x =
      if x = name then (g.arrays.get? name).map (fun _ => a) else g.arrays.get? x :=
    ObjectMap.get?_modify (fun _ _ => ha) x
  rw [hget] at hmodify
  rw [setArray_eq hb, nameOf_array? hstrays hb, array?, array?,
    ObjectMap.lookup?_eq_get? hstrays, ObjectMap.lookup?_eq_get? (by exact hstrays)]
  exact hmodify

/-- An array gives way to one over the same storage. -/
theorem grows_setArray (hg : Bounded g.arrays.objects s) {a a' : RegisterArray}
    (ha : g.array? name = some a) (hst : a'.storage = a.storage) (hname : nameOf a' = nameOf a) :
    Grows g.arrays.objects s (g.setArray name a').arrays.objects s := by
  refine Grows.of_kept hg fun b hb => ?_
  obtain ⟨c, hc, rfl⟩ := (mem_setArray ha).mp hb
  split
  · exact ⟨a, mem_of_array? ha, hst.symm, hname.symm⟩
  · exact ⟨c, hc, rfl, rfl⟩

/-- An array gives way to one over a new storage. -/
theorem grows_setArray_add (hg : Bounded g.arrays.objects s) {a : RegisterArray} (st : Storage)
    (ha : a.storage = s.size) :
    Grows g.arrays.objects s (g.setArray name a).arrays.objects (s.add st) :=
  Grows.add hg st ha fun _ => mem_of_mem_setArray

theorem grows_insertArray (hg : Bounded g.arrays.objects s) {size bitwidth : Nat}
    (h : g.insertArray s name size bitwidth = .ok (g', s')) :
    Grows g.arrays.objects s g'.arrays.objects s' := by
  obtain ⟨arrays, harrays, rfl, rfl⟩ := insertArray_ok h
  exact Grows.add hg _ rfl fun b hb => ((ObjectMap.mem_insertNew harrays).mp hb).imp_right And.left

theorem grows_rehashArray (hg : Bounded g.arrays.objects s) {r : RehashSpec}
    (h : g.rehashArray s r = .ok (g', s')) :
    Grows g.arrays.objects s g'.arrays.objects s' := by
  obtain ⟨target, reset, inputs, -, -, rfl, rfl⟩ := rehashArray_ok h
  have h₁ : Grows g.arrays.objects s
      (g.setArray r.target (target.rehashed inputs s).1).arrays.objects
      (target.rehashed inputs s).2 :=
    grows_setArray_add hg _ rfl
  exact h₁.trans (grows_setArray_add h₁.bounded _ rfl)

/-! ### Edits of nodes -/

theorem arrays_adoptActions {donor : Program} {as : List Action} {ids : List Int}
    (h : adoptActions donor g as = .ok (g', ids)) : g'.arrays = g.arrays := by
  obtain ⟨actions, calculations, rfl⟩ := adoptActions_ok h
  rfl

end Program

open Program

/-! ### All edits -/

namespace Edit

variable {donor g g' : Program} {s s' : Store} {e : Edit}

/-- Edits of nodes leave arrays and storages alone. -/
theorem arrays_of_onNodes (he : e.onNodes = true) (h : e.run donor (g, s) = .ok (g', s')) :
    g'.arrays = g.arrays ∧ s' = s := by
  obtain ⟨hchange, hs⟩ := nodeChange_run he h
  refine ⟨?_, hs⟩
  cases hchange with
  | insert _ _ hadopt =>
    have harrays := arrays_adoptActions hadopt
    exact harrays
  | wire | delete => rfl

/-- Every edit grows a program. -/
theorem grows (hg : Bounded g.arrays.objects s) (h : e.run donor (g, s) = .ok (g', s')) :
    Grows g.arrays.objects s g'.arrays.objects s' := by
  by_cases he : e.onNodes = true
  · obtain ⟨harrays, rfl⟩ := arrays_of_onNodes he h
    rw [harrays]
    exact Grows.refl hg
  · cases e with
    | insertArray name size bitwidth => exact grows_insertArray hg h
    | resizeArray name size =>
      obtain ⟨hg₁, rfl⟩ := pair_eq_ok.mp h
      obtain ⟨a, ha, rfl⟩ := resizeArray_ok hg₁
      exact grows_setArray hg ha rfl rfl
    | rewidenArray name bitwidth =>
      obtain ⟨hg₁, rfl⟩ := pair_eq_ok.mp h
      obtain ⟨a, ha, rfl⟩ := rewidenArray_ok hg₁
      exact grows_setArray hg ha rfl rfl
    | deleteArray name =>
      obtain ⟨hg₁, rfl⟩ := pair_eq_ok.mp h
      obtain ⟨a, ha, rfl⟩ := deleteArray_ok hg₁
      exact Grows.of_kept hg fun b hb => ⟨b, ObjectMap.mem_of_mem_remove hb, rfl, rfl⟩
    | rehashArray r => exact grows_rehashArray hg h
    | _ => exact absurd rfl he

/-- No edit brings a name back that has gone astray. -/
theorem strays_run (h : e.run donor (g, s) = .ok (g', s')) (hstrays : g'.arrays.strays = []) :
    g.arrays.strays = [] := by
  by_cases he : e.onNodes = true
  · rw [← (arrays_of_onNodes he h).1]
    exact hstrays
  cases e with
  | insertArray name size bitwidth =>
    obtain ⟨arrays, harrays, rfl, rfl⟩ := insertArray_ok h
    exact ((ObjectMap.strays_insertNew_eq_nil harrays).mp hstrays).1
  | resizeArray name size =>
    obtain ⟨hg₁, rfl⟩ := pair_eq_ok.mp h
    obtain ⟨b, -, rfl⟩ := resizeArray_ok hg₁
    rwa [strays_setArray] at hstrays
  | rewidenArray name width =>
    obtain ⟨hg₁, rfl⟩ := pair_eq_ok.mp h
    obtain ⟨b, -, rfl⟩ := rewidenArray_ok hg₁
    rwa [strays_setArray] at hstrays
  | deleteArray name =>
    obtain ⟨hg₁, rfl⟩ := pair_eq_ok.mp h
    obtain ⟨b, hb, rfl⟩ := deleteArray_ok hg₁
    exact ObjectMap.strays_remove_eq_nil hb hstrays
  | rehashArray r =>
    obtain ⟨target, reset, inputs, -, -, rfl, rfl⟩ := rehashArray_ok h
    rwa [strays_setArray, strays_setArray] at hstrays
  | _ => exact absurd rfl he

/-- A list of edits grows a program. -/
theorem grows_foldlM {l : List Edit} (hg : Bounded g.arrays.objects s)
    (h : l.foldlM (Edit.run donor) (g, s) = .ok (g', s')) :
    Grows g.arrays.objects s g'.arrays.objects s' := by
  refine foldlM_induction
    (P := fun x => Grows g.arrays.objects s x.1.arrays.objects x.2) ?_ (Grows.refl hg) h
  intro e _ y z hy hz
  exact hy.trans (grows hy.bounded hz)

end Edit

/-! ### Loading -/

/-- Every array lies in a storage of its own, above those of a store, with nothing pending and all
its cells zero. -/
structure RegisterArray.Fresh (s : Store) (m : ObjectMap RegisterArray) (s' : Store) : Prop where
  grows : Grows [] s m.objects s'
  consistent : m.Consistent
  pending : ∀ a ∈ m.objects, a.pending = []
  zeros : ∀ a ∈ m.objects, s'.get a.storage = .zeros a.size a.bitwidth

/-- Fresh arrays show just what their storages hold. -/
theorem RegisterArray.Fresh.settled {s s' : Store} {m : ObjectMap RegisterArray}
    (h : Fresh s m s') : ∀ a ∈ m.objects, a.Settled (s'.get a.storage) := by
  intro a ha
  rw [h.zeros a ha]
  exact ⟨h.pending a ha, rfl, Storage.size_cells_zeros _ _, Storage.fits_zeros _ _⟩

namespace Loader

variable {l l' : Loader} {s : Store}

theorem fresh_addArray {r : ArrayRecord} (hl : Fresh s l.program.arrays l.store)
    (h : l.addArray r = .ok l') : Fresh s l'.program.arrays l'.store := by
  obtain ⟨arrays, -, -, harrays, rfl⟩ := addArray_eq_ok.mp h
  have hconsistent := hl.consistent.insert harrays
  obtain ⟨-, -, rfl⟩ := ObjectMap.insert_eq_ok.mp harrays
  refine ⟨hl.grows.trans ?_, hconsistent, fun a ha => ?_, fun a ha => ?_⟩
  · exact Grows.add hl.grows.bounded _ rfl fun b hb => ObjectMap.mem_place.mp hb
  · rcases ObjectMap.mem_place.mp ha with rfl | ha
    · rfl
    · exact hl.pending a ha
  · rw [Store.get_add]
    rcases ObjectMap.mem_place.mp ha with rfl | ha
    · have hst : (RegisterArray.zeros r.identity r.size r.bitwidth r.extra l.store).1.storage =
          l.store.size := rfl
      have hsize : (RegisterArray.zeros r.identity r.size r.bitwidth r.extra l.store).1.size =
          r.size := Storage.size_cells_zeros _ _
      rw [if_pos hst, hsize]
      rfl
    · rw [if_neg (Nat.ne_of_lt (hl.grows.bounded a ha))]
      exact hl.zeros a ha

/-- A record that is added keeps the arrays in storages of their own: only arrays take storages. -/
theorem fresh_adds (hl : Fresh s l.program.arrays l.store) (h : l.Adds l') :
    Fresh s l'.program.arrays l'.store := by
  cases h with
  | array _ h => exact fresh_addArray hl h
  | calculation _ h =>
    obtain ⟨_, _, -, -, rfl⟩ := addCalculation_eq_ok.mp h
    exact hl
  | action _ h =>
    obtain ⟨_, _, -, -, rfl⟩ := addAction_eq_ok.mp h
    exact hl
  | pipeline _ h =>
    obtain ⟨hstore, hprogram⟩ := addPipeline_keep h
    rw [hprogram, hstore]
    exact hl

end Loader

/-- The arrays of a document lie in storages of their own. -/
theorem Program.ofDocument_fresh {s s' : Store} {v : Json.Value} {g : Program}
    (h : ofDocument s v = .ok (g, s')) : Fresh s g.arrays s' := by
  obtain ⟨root, layout, l, -, hl, rfl, rfl⟩ := adds_ofDocument h
  show Fresh s l.program.arrays l.store
  clear h
  induction hl with
  | refl => exact ⟨Grows.refl (by simp [Bounded]), ObjectMap.Consistent.empty, by simp, by simp⟩
  | tail _ hadds ih => exact Loader.fresh_adds ih hadds

/-! ### Commits -/

namespace Program

theorem commitArray_eq (a : RegisterArray) (s : Store) :
    (commitArray a s).1 = a.settled ∧
      (commitArray a s).2 = if a.isPending then (a.committed s).2 else s := by
  unfold commitArray
  split
  case isTrue h => exact ⟨rfl, rfl⟩
  case isFalse h =>
    refine ⟨?_, rfl⟩
    have hpending : a.pending = [] := by simpa [isPending] using h
    cases a
    cases hpending
    rfl

@[simp] theorem size_commitArray (a : RegisterArray) (s : Store) :
    (commitArray a s).2.size = s.size := by
  rw [(commitArray_eq a s).2]
  split
  · exact Store.size_set ..
  · rfl

theorem get_commitArray_of_ne {a : RegisterArray} {s : Store} {n : Nat} (h : a.storage ≠ n) :
    (commitArray a s).2.get n = s.get n := by
  rw [(commitArray_eq a s).2]
  split
  · exact Store.get_set_of_ne h.symm
  · rfl

/-- A commit carries out the pending steps of every array. -/
theorem commitAll_fst (l : List RegisterArray) (s : Store) :
    (commitAll l s).1 = l.map RegisterArray.settled := by
  induction l generalizing s with
  | nil => rfl
  | cons a l ih =>
    show (commitArray a s).1 :: (commitAll l (commitArray a s).2).1 = _
    rw [ih, (commitArray_eq a s).1, List.map_cons]

theorem objects_commitArrays (g : Program) (s : Store) :
    (g.commitArrays s).1.arrays.objects = g.arrays.objects.map RegisterArray.settled :=
  commitAll_fst g.arrays.objects s

@[simp] theorem size_commitAll (l : List RegisterArray) (s : Store) :
    (commitAll l s).2.size = s.size := by
  induction l generalizing s with
  | nil => rfl
  | cons a l ih =>
    show (commitAll l (commitArray a s).2).2.size = _
    rw [ih, size_commitArray]

theorem size_commitArrays (g : Program) (s : Store) : (g.commitArrays s).2.size = s.size :=
  size_commitAll g.arrays.objects s

/-- Without pending steps there is nothing to carry out. -/
theorem commitArrays_eq_self {g : Program} (h : ∀ a ∈ g.arrays.objects, a.pending = [])
    (s : Store) : g.commitArrays s = (g, s) := by
  have hall : ∀ l : List RegisterArray, (∀ a ∈ l, a.pending = []) → commitAll l s = (l, s) := by
    intro l hl
    induction l with
    | nil => rfl
    | cons a l ih =>
      have hpending : a.isPending = false := by simp [isPending, hl a List.mem_cons_self]
      rw [commitAll, commitArray, hpending]
      simp only [Bool.false_eq_true, if_false, ih fun b hb => hl b (List.mem_cons_of_mem _ hb)]
  rw [commitArrays, hall _ h]

/-- A commit leaves the storages of other arrays alone. -/
theorem get_commitAll {l : List RegisterArray} {s : Store} {n : Nat}
    (h : ∀ a ∈ l, a.storage ≠ n) : (commitAll l s).2.get n = s.get n := by
  induction l generalizing s with
  | nil => rfl
  | cons a l ih =>
    rw [List.forall_mem_cons] at h
    show (commitAll l (commitArray a s).2).2.get n = _
    rw [ih h.2, get_commitArray_of_ne h.1]

end Program

end LiveSwitch
