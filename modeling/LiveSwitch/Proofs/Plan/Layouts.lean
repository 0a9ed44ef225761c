import LiveSwitch.Proofs.Program.Arrays
import LiveSwitch.Proofs.Register.Migration
import LiveSwitch.Proofs.Register.Rehash

/-!
# What a plan does to the arrays of a program

As long as no command of a plan replaces an array, the candidate has the array of before with
one more pending step for each command that gives it a size or a width.  An array without
pending steps shows just what its storage holds, throughout the plan and after the commit.

## Main definitions

* `Edit.replaces` — the edits after which a name stands for another array, or for none.
* `Edit.migration?`, `Edit.migrations` — the steps that edits give an array.
* `RegisterArray.Showing` — arrays without pending steps show what their storages hold.

## Main results

* `Edit.array?_run` — an array that is not replaced is laid out anew, as long as no name goes
  astray.
* `Edit.showing_run` — an edit keeps `Showing`.
* `Program.settled_commitAll`, `Program.get_commitAll_of_mem` — what a commit gives.
-/

namespace LiveSwitch

open RegisterArray

namespace Edit

/-- The edits after which a name stands for another array, or for none. -/
def replaces (x : String) : Edit → Bool
  | deleteArray name => name == x
  | rehashArray r => r.target == x || r.reset == x
  | _ => false

/-- The step that an edit gives the array of a name. -/
def migration? (x : String) : Edit → Option Migration
  | resizeArray name size => if name = x then some (.resize size) else none
  | rewidenArray name width => if name = x then some (.rewiden width) else none
  | _ => none

/-- The steps that edits give the array of a name, in turn. -/
def migrations (x : String) (l : List Edit) : List Migration := l.filterMap (migration? x)

variable {donor g g' : Program} {s s' : Store} {e : Edit} {x : String}

theorem migrations_append (x : String) (l l' : List Edit) :
    migrations x (l ++ l') = migrations x l ++ migrations x l' :=
  List.filterMap_append

theorem migrations_singleton (x : String) (e : Edit) :
    migrations x [e] = (e.migration? x).toList := by
  rw [migrations, List.filterMap_cons]
  cases e.migration? x <;> rfl

/-- A look-up by name after a step was added to an array. -/
theorem array?_setArray_migrated (hstrays : g.arrays.strays = []) {name : String}
    {a b : RegisterArray} (hb : g.array? name = some b) (ha : g.array? x = some a)
    (m : Migration) :
    (g.setArray name (b.migrated m)).array? x =
      some (a.relayout (if name = x then some m else none).toList) := by
  have hbname : nameOf b = name := Program.nameOf_array? hstrays hb
  have hname : nameOf (b.migrated m) = name := by cases m <;> exact hbname
  rw [Program.array?_setArray_eq_ite hstrays hb hname]
  by_cases hx : name = x
  · subst hx
    rw [hb, Option.some.injEq] at ha
    rw [if_pos rfl, if_pos rfl, ha]
    rfl
  · rw [if_neg (Ne.symm hx), if_neg hx]
    exact ha

/-- A rehash replaces its target and its reset array only. -/
theorem array?_rehashArray (hstrays : g.arrays.strays = []) {r : Program.RehashSpec}
    (h : g.rehashArray s r = .ok (g', s')) (htarget : x ≠ r.target) (hreset : x ≠ r.reset) :
    g'.array? x = g.array? x := by
  obtain ⟨target, reset, inputs, ht, hr, rfl, rfl⟩ := Program.rehashArray_ok h
  have hnameOf : nameOf target = r.target := Program.nameOf_array? hstrays ht
  have hnameOf' : nameOf reset = r.reset := Program.nameOf_array? hstrays hr
  have htname : nameOf (target.rehashed inputs s).1 = r.target := hnameOf
  have hrname : nameOf (reset.cleared (target.rehashed inputs s).2).1 = r.reset := hnameOf'
  obtain ⟨b, hb⟩ : ∃ b, (g.setArray r.target (target.rehashed inputs s).1).array? r.reset =
      some b := by
    rw [Program.array?_setArray_eq_ite hstrays ht htname, hr]
    split <;> exact ⟨_, rfl⟩
  rw [Program.array?_setArray_eq_ite (by simpa using hstrays) hb hrname, if_neg hreset,
    Program.array?_setArray_eq_ite hstrays ht htname, if_neg htarget]

/-- An array that is not replaced is laid out anew, as long as no name goes astray. -/
theorem array?_run (h : e.run donor (g, s) = .ok (g', s')) (hstrays : g'.arrays.strays = [])
    (hx : e.replaces x = false) {a : RegisterArray} (ha : g.array? x = some a) :
    g'.array? x = some (a.relayout (e.migration? x).toList) := by
  have hbefore := strays_run h hstrays
  by_cases he : e.onNodes = true
  · have harrays : g'.arrays = g.arrays := (arrays_of_onNodes he h).1
    have hnone : e.migration? x = none := by cases e <;> first | rfl | cases he
    rw [hnone, Program.array?, harrays]
    exact ha
  cases e with
  | insertArray name size bitwidth =>
    obtain ⟨arrays, harrays, rfl, rfl⟩ := Program.insertArray_ok h
    have hne : x ≠ name := by
      rintro rfl
      have hfree := (ObjectMap.insertNew_eq_ok.mp harrays).1
      rw [ObjectMap.contains_eq_isSome hbefore, show g.arrays.lookup? x = some a from ha] at hfree
      cases hfree
    have hname (id : Int) : nameOf (zeros { name, id } size bitwidth [] s).1 = name := rfl
    have hget := ObjectMap.lookup?_insertNew hname harrays hstrays x
    rw [if_neg hne] at hget
    exact hget.trans ha
  | resizeArray name size =>
    obtain ⟨hg₁, rfl⟩ := pair_eq_ok.mp h
    obtain ⟨b, hb, rfl⟩ := Program.resizeArray_ok hg₁
    exact array?_setArray_migrated hbefore hb ha (.resize size)
  | rewidenArray name width =>
    obtain ⟨hg₁, rfl⟩ := pair_eq_ok.mp h
    obtain ⟨b, hb, rfl⟩ := Program.rewidenArray_ok hg₁
    exact array?_setArray_migrated hbefore hb ha (.rewiden width)
  | deleteArray name =>
    obtain ⟨hg₁, rfl⟩ := pair_eq_ok.mp h
    obtain ⟨b, hb, rfl⟩ := Program.deleteArray_ok hg₁
    have hne : x ≠ name := by
      rintro rfl
      simp [replaces] at hx
    have hget := ObjectMap.lookup?_remove hbefore name x
    rw [if_neg hne] at hget
    exact hget.trans ha
  | rehashArray r =>
    have hne : x ≠ r.target ∧ x ≠ r.reset := by
      constructor <;> rintro rfl <;> simp [replaces] at hx
    rw [array?_rehashArray hbefore h hne.1 hne.2]
    exact ha
  | _ => exact absurd rfl he

end Edit

/-! ### Arrays without pending steps -/

/-- Arrays without pending steps show just what their storages hold. -/
def RegisterArray.Showing (l : List RegisterArray) (s : Store) : Prop :=
  ∀ a ∈ l, a.pending = [] → a.Settled (s.get a.storage)

namespace Program

variable {g g' : Program} {s s' : Store} {name : String}

/-- Storages that were added change nothing. -/
theorem showing_extends {l : List RegisterArray} (hl : Showing l s) (hbounded : Bounded l s)
    (h : s.Extends s') : Showing l s' := by
  intro a ha hpending
  rw [h.get_eq a.storage (hbounded a ha)]
  exact hl a ha hpending

/-- A new array shows what the storage holds that it was made for. -/
theorem showing_add {l l' : List RegisterArray} (hl : Showing l s) (hbounded : Bounded l s)
    {a : RegisterArray} {st : Storage} (hst : a.storage = s.size) (ha : a.Settled st)
    (h : ∀ b ∈ l', b = a ∨ b ∈ l) : Showing l' (s.add st) := by
  intro b hb hpending
  rcases h b hb with rfl | hb
  · rw [Store.get_add, if_pos hst]
    exact ha
  · exact showing_extends hl hbounded (s.extends_add st) b hb hpending

/-- An array over a new storage in the place of another. -/
theorem showing_setArray_add (hbounded : Bounded g.arrays.objects s)
    (hg : Showing g.arrays.objects s) {a : RegisterArray} {st : Storage}
    (hst : a.storage = s.size) (ha : a.Settled st) :
    Showing (g.setArray name a).arrays.objects (s.add st) :=
  showing_add hg hbounded hst ha fun _ => mem_of_mem_setArray

theorem showing_rehashArray {r : RehashSpec} (hbounded : Bounded g.arrays.objects s)
    (hg : Showing g.arrays.objects s) (h : g.rehashArray s r = .ok (g', s')) :
    Showing g'.arrays.objects s' := by
  obtain ⟨target, reset, inputs, -, -, rfl, rfl⟩ := rehashArray_ok h
  have hshowing : Showing (g.setArray r.target (target.rehashed inputs s).1).arrays.objects
      (target.rehashed inputs s).2 :=
    showing_setArray_add hbounded hg rfl (settled_rehashed target inputs s)
  have hbounded' : Bounded (g.setArray r.target (target.rehashed inputs s).1).arrays.objects
      (target.rehashed inputs s).2 :=
    (grows_setArray_add hbounded _ rfl).bounded
  exact showing_setArray_add hbounded' hshowing rfl (settled_zeros ..)

/-- An array of the identity of the one in whose place it is put. -/
theorem consistent_setArray (hg : g.arrays.Consistent) {a b : RegisterArray}
    (hb : g.array? name = some b) (ha : a.identity = b.identity) :
    (g.setArray name a).arrays.Consistent := by
  rw [setArray_eq hb]
  refine hg.modify (fun _ _ => congrArg Identity.name ha) fun c hc hname => ?_
  rw [ObjectMap.eq_of_name_eq hg.names hc (mem_of_array? hb) hname]
  exact congrArg Identity.id ha

theorem consistent_rehashArray {r : RehashSpec} (hg : g.arrays.Consistent)
    (h : g.rehashArray s r = .ok (g', s')) : g'.arrays.Consistent := by
  obtain ⟨target, reset, inputs, ht, hr, rfl, rfl⟩ := rehashArray_ok h
  have hg₁ : (g.setArray r.target (target.rehashed inputs s).1).arrays.Consistent :=
    consistent_setArray hg ht rfl
  obtain ⟨b, hb, hidentity⟩ :=
    exists_reset (a := (target.rehashed inputs s).1) hg ht hr rfl
  exact consistent_setArray hg₁ hb hidentity.symm

/-- An array that is laid out anew shows nothing of its storage until the commit. -/
theorem showing_setArray_migrated (hg : Showing g.arrays.objects s) (a : RegisterArray)
    (m : Migration) : Showing (g.setArray name (a.migrated m)).arrays.objects s := by
  intro b hb hpending
  rcases mem_of_mem_setArray hb with rfl | hb
  · cases m <;> simp [migrated, resized, rewidened] at hpending
  · exact hg b hb hpending

end Program

namespace Edit

open Program

variable {donor g g' : Program} {s s' : Store} {e : Edit}

/-- Edits keep it that arrays without pending steps show what their storages hold. -/
theorem showing_run (hbounded : Bounded g.arrays.objects s) (hg : Showing g.arrays.objects s)
    (h : e.run donor (g, s) = .ok (g', s')) : Showing g'.arrays.objects s' := by
  by_cases he : e.onNodes = true
  · obtain ⟨harrays, rfl⟩ := arrays_of_onNodes he h
    rw [harrays]
    exact hg
  cases e with
  | insertArray name size bitwidth =>
    obtain ⟨arrays, harrays, rfl, rfl⟩ := insertArray_ok h
    exact showing_add hg hbounded rfl (settled_zeros ..) fun b hb =>
      ((ObjectMap.mem_insertNew harrays).mp hb).imp_right And.left
  | resizeArray name size =>
    obtain ⟨hg₁, rfl⟩ := pair_eq_ok.mp h
    obtain ⟨b, hb, rfl⟩ := resizeArray_ok hg₁
    exact showing_setArray_migrated hg b (.resize size)
  | rewidenArray name width =>
    obtain ⟨hg₁, rfl⟩ := pair_eq_ok.mp h
    obtain ⟨b, hb, rfl⟩ := rewidenArray_ok hg₁
    exact showing_setArray_migrated hg b (.rewiden width)
  | deleteArray name =>
    obtain ⟨hg₁, rfl⟩ := pair_eq_ok.mp h
    obtain ⟨b, hb, rfl⟩ := deleteArray_ok hg₁
    exact fun a ha => hg a (ObjectMap.mem_of_mem_remove ha)
  | rehashArray r => exact showing_rehashArray hbounded hg h
  | _ => exact absurd rfl he

/-- Edits keep the object map of arrays consistent. -/
theorem consistent_run (hg : g.arrays.Consistent) (h : e.run donor (g, s) = .ok (g', s')) :
    g'.arrays.Consistent := by
  by_cases he : e.onNodes = true
  · rw [(arrays_of_onNodes he h).1]
    exact hg
  cases e with
  | insertArray name size bitwidth =>
    obtain ⟨arrays, harrays, rfl, rfl⟩ := insertArray_ok h
    have hname (id : Int) : nameOf (zeros { name, id } size bitwidth [] s).1 = name := rfl
    have hid (id : Int) : idOf (zeros { name, id } size bitwidth [] s).1 = id := rfl
    exact hg.insertNew hname hid harrays
  | resizeArray name size =>
    obtain ⟨hg₁, rfl⟩ := pair_eq_ok.mp h
    obtain ⟨b, hb, rfl⟩ := resizeArray_ok hg₁
    exact consistent_setArray hg hb rfl
  | rewidenArray name width =>
    obtain ⟨hg₁, rfl⟩ := pair_eq_ok.mp h
    obtain ⟨b, hb, rfl⟩ := rewidenArray_ok hg₁
    exact consistent_setArray hg hb rfl
  | deleteArray name =>
    obtain ⟨hg₁, rfl⟩ := pair_eq_ok.mp h
    obtain ⟨b, hb, rfl⟩ := deleteArray_ok hg₁
    exact hg.remove name
  | rehashArray r => exact consistent_rehashArray hg h
  | _ => exact absurd rfl he

/-- What a list of edits keeps of the arrays of a program. -/
theorem showing_foldlM {l : List Edit} (hconsistent : g.arrays.Consistent)
    (hbounded : Bounded g.arrays.objects s) (hg : Showing g.arrays.objects s)
    (h : l.foldlM (Edit.run donor) (g, s) = .ok (g', s')) :
    g'.arrays.Consistent ∧ Showing g'.arrays.objects s' := by
  have hrun := foldlM_induction
    (P := fun x => Bounded x.1.arrays.objects x.2 ∧ x.1.arrays.Consistent ∧
      Showing x.1.arrays.objects x.2) ?_ ⟨hbounded, hconsistent, hg⟩ h
  · exact hrun.2
  · intro e _ x y hx hy
    obtain ⟨hbounded, hconsistent, hg⟩ := hx
    exact ⟨(grows hbounded hy).bounded, consistent_run hconsistent hy, showing_run hbounded hg hy⟩

end Edit

/-! ### Commits -/

namespace Program

variable {l : List RegisterArray} {s : Store}

/-- Arrays that lie apart unless they share a name, under names of their own, lie apart. -/
theorem nodup_storage {m : ObjectMap RegisterArray} (hm : m.Consistent)
    (hapart : ∀ a ∈ m.objects, ∀ b ∈ m.objects, a.storage = b.storage → nameOf a = nameOf b) :
    (m.objects.map (·.storage)).Nodup := by
  have hnames := hm.names
  rw [ObjectMap.names, List.Nodup, List.pairwise_map] at hnames
  rw [List.Nodup, List.pairwise_map]
  exact hnames.imp_of_mem fun ha hb hne heq => hne (hapart _ ha _ hb heq)

/-- A commit carries out the pending steps of an array in its storage. -/
theorem get_commitAll_of_mem (hl : (l.map (·.storage)).Nodup) (hbounded : Bounded l s)
    {a : RegisterArray} (ha : a ∈ l) :
    (commitAll l s).2.get a.storage =
      if a.isPending then a.migrate (s.get a.storage) else s.get a.storage := by
  induction l generalizing s with
  | nil => cases ha
  | cons b l ih =>
    rw [List.map_cons, List.nodup_cons] at hl
    rw [Bounded, List.forall_mem_cons] at hbounded
    show (commitAll l (commitArray b s).2).2.get a.storage = _
    rcases List.mem_cons.mp ha with rfl | ha
    · have hother : ∀ c ∈ l, c.storage ≠ a.storage :=
        fun c hc heq => hl.1 (heq ▸ List.mem_map_of_mem hc)
      rw [get_commitAll hother, (commitArray_eq a s).2]
      split
      · exact Store.get_set_self hbounded.1
      · rfl
    · have hne : b.storage ≠ a.storage := fun heq => hl.1 (heq ▸ List.mem_map_of_mem ha)
      have hbounded' : Bounded l (commitArray b s).2 :=
        fun c hc => (size_commitArray b s).symm ▸ hbounded.2 c hc
      rw [ih hl.2 hbounded' ha, get_commitArray_of_ne hne]

theorem consistent_commitArrays {g : Program} (hg : g.arrays.Consistent) (s : Store) :
    (g.commitArrays s).1.arrays.Consistent := by
  have hobjects := objects_commitArrays g s
  refine ⟨?_, ?_, ?_⟩
  · rw [ObjectMap.names, hobjects, List.map_map]
    exact hg.names
  · rw [hobjects, List.map_map]
    exact hg.ids
  · intro a ha
    rw [hobjects] at ha
    obtain ⟨b, hb, rfl⟩ := List.mem_map.mp ha
    exact hg.strays b hb

@[simp] theorem strays_commitArrays (g : Program) (s : Store) :
    (g.commitArrays s).1.arrays.strays = g.arrays.strays := rfl

theorem array?_commitArrays (g : Program) (s : Store) (x : String) :
    (g.commitArrays s).1.array? x = (g.array? x).map RegisterArray.settled := by
  rw [array?, array?, ObjectMap.lookup?, ObjectMap.lookup?, strays_commitArrays]
  cases g.arrays.strays.lookup x with
  | some id =>
    dsimp only
    rw [ObjectMap.getById?, ObjectMap.getById?, objects_commitArrays, List.find?_map]
    rfl
  | none =>
    dsimp only
    rw [ObjectMap.get?, ObjectMap.get?, objects_commitArrays, List.find?_map]
    rfl

/-- After a commit every array shows just what its storage holds. -/
theorem settled_commitAll (hl : (l.map (·.storage)).Nodup) (hbounded : Bounded l s)
    (hshowing : Showing l s) :
    ∀ a ∈ (commitAll l s).1, a.Settled ((commitAll l s).2.get a.storage) := by
  intro a ha
  rw [commitAll_fst] at ha
  obtain ⟨b, hb, rfl⟩ := List.mem_map.mp ha
  have hstorage : b.settled.storage = b.storage := rfl
  rw [hstorage, get_commitAll_of_mem hl hbounded hb]
  split
  case isTrue => exact settled_migrate b _
  case isFalse h =>
    have hpending : b.pending = [] := by simpa [isPending] using h
    have hsettled := hshowing b hb hpending
    exact ⟨rfl, hsettled.bitwidth, hsettled.size, hsettled.fits⟩

end Program

end LiveSwitch
