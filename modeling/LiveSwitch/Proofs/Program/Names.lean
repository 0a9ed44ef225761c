import LiveSwitch.Proofs.Program.Arrays
import Mathlib.Data.Fintype.EquivFin

/-!
# The names of a program

Nodes have names within their pipeline, and register arrays have names within the program.  An
edit inserts one name at most or deletes one at most, and it finds an object under every name that
it mentions.  This holds of every program, however it came about.  The name of an array may go
astray, though, when a new array gets the id: it stays taken, and what it leads to is another
array or none.

## Main definitions

* `Program.Takes`, `Program.Has` — a name is taken, and it leads to an object.
* `Program.Stray` — the name of an array that has lost its id.
* `Edit.subjects` — what an edit mentions.
* `Program.ChangesNames` — the names before and after an edit.

## Main results

* `Edit.changesNames_run` — an edit inserts and deletes just what it says.
* `Edit.stray_run` — a name that is astray stays so until it is deleted.
* `Edit.has_of_run` — an edit finds what it mentions.
-/

namespace LiveSwitch

namespace Edit

/-- The objects that an edit mentions, other than the one that it inserts. -/
def subjects : Edit → List Subject
  | insertConditional _ _ | insertTable _ _ | insertArray _ _ _ => []
  | insertFlex pipeline _ falseNext? trueNext? =>
    (falseNext?.toList ++ trueNext?.toList).map (.node pipeline)
  | setConditionalNext pipeline name _ target? => (name :: target?.toList).map (.node pipeline)
  | deleteConditional pipeline name => [.node pipeline name]
  | setTableNext pipeline name _ target? => (name :: target?.toList).map (.node pipeline)
  | deleteTable pipeline name => [.node pipeline name]
  | resizeArray name _ => [.array name]
  | rewidenArray name _ => [.array name]
  | deleteArray name => [.array name]
  | rehashArray r => [r.target, r.recording, r.lastPos, r.counting, r.reset].map .array

end Edit

namespace Command

/-- The object that a command inserts. -/
def inserts? (c : Command) : Option Subject := c.edit.inserts?

/-- The object that a command deletes. -/
def deletes? (c : Command) : Option Subject := c.edit.deletes?

end Command

/-- What is looked up in the node of a name is there only if the name is. -/
theorem Pipeline.isSome_find?_of_bind {p : Pipeline} {name : String} {α : Type}
    {f : Node → Option α} {a : α} (h : (p.node? name).bind f = some a) :
    (p.find? name).isSome := by
  obtain ⟨n, hn, -⟩ := Option.bind_eq_some_iff.mp h
  obtain ⟨r, hr, -⟩ := Option.bind_eq_some_iff.mp hn
  rw [hr, Option.isSome_some]

/-- Some name is free: there are more names than nodes. -/
theorem Pipeline.exists_free (p : Pipeline) : ∃ name, p.find? name = none := by
  obtain ⟨name, hname⟩ := Infinite.exists_notMem_finset (p.byName.map Prod.fst).toFinset
  rw [List.mem_toFinset, List.mem_map] at hname
  refine ⟨name, List.lookup_eq_none_iff.mpr fun x hx => ?_⟩
  exact bne_iff_ne.mpr fun heq => hname ⟨x, hx, heq.symm⟩

/-- A node can be inserted under a name that is free. -/
theorem Pipeline.exists_insertNode {p : Pipeline} {n : Node} (h : p.find? n.name = none) :
    ∃ r p', p.insertNode n = .ok (r, p') := by
  rw [insertNode, h]
  split
  case isTrue hnone => cases hnone
  case isFalse => split <;> exact ⟨_, _, rfl⟩

namespace Program

variable {g g' : Program} {pipeline name : String} {p p' : Pipeline}

/-- A program has an object under a name. -/
def Has (g : Program) : Subject → Prop
  | .node pipeline name => ((g.pipeline? pipeline).bind (·.find? name)).isSome
  | .array name => (g.array? name).isSome

/-- A name is taken. -/
def Takes (g : Program) : Subject → Prop
  | .node pipeline name => ((g.pipeline? pipeline).bind (·.find? name)).isSome
  | .array name => g.arrays.contains name

/-- The name of an array that has lost its id. -/
def Stray (g : Program) : Subject → Prop
  | .node _ _ => False
  | .array name => (g.arrays.strays.lookup name).isSome

theorem not_stray_array {name : String} :
    ¬g.Stray (.array name) ↔ g.arrays.strays.lookup name = none := by
  rw [Stray, Bool.not_eq_true, Option.isSome_eq_false_iff, Option.isNone_iff_eq_none]

/-- Names lead to objects when they are taken, unless they are astray. -/
theorem takes_iff_has {x : Subject} (hx : ¬g.Stray x) : g.Takes x ↔ g.Has x := by
  cases x with
  | node => exact Iff.rfl
  | array name =>
    rw [not_stray_array] at hx
    rw [Takes, ObjectMap.contains, hx, Has, array?, ObjectMap.lookup?, hx]
    exact Iff.rfl

/-- Only names that are taken lead to objects. -/
theorem takes_of_has {x : Subject} (hx : g.Has x) : g.Takes x := by
  by_cases hstray : g.Stray x
  · cases x with
    | node => exact hx
    | array name => exact Bool.or_eq_true_iff.mpr (Or.inl hstray)
  · exact (takes_iff_has hstray).mpr hx

theorem takes_node_iff (hp : g.pipeline? pipeline = some p) (name : String) :
    g.Takes (.node pipeline name) ↔ (p.find? name).isSome := by
  rw [Takes, hp, Option.bind_some]

theorem has_node_iff (hp : g.pipeline? pipeline = some p) (name : String) :
    g.Has (.node pipeline name) ↔ (p.find? name).isSome :=
  takes_node_iff hp name

/-- The target of an edge is a node of the pipeline. -/
theorem has_of_edgeTo (hp : g.pipeline? pipeline = some p) {target? : Option String} {e : Edge}
    (he : p.edgeTo target? = .ok e) : ∀ name ∈ target?.toList, g.Has (.node pipeline name) := by
  intro name hname
  rw [Option.mem_toList] at hname
  obtain ⟨heq, hnone⟩ := Pipeline.edgeTo_eq_ok.mp he
  rw [has_node_iff hp, Option.isSome_iff_ne_none]
  intro hfind
  rw [hname, Option.bind_some, hfind] at heq
  cases hname.symm.trans (hnone heq)

theorem has_array {a : RegisterArray} (ha : g.array? name = some a) : g.Has (.array name) := by
  rw [Has, ha, Option.isSome_some]

/-- The names of a program after one pipeline was changed. -/
theorem takes_node_setPipeline (hp : g.pipeline? pipeline = some p)
    (hidentity : p'.identity = p.identity)
    (hg' : g'.pipelines = (g.setPipeline pipeline p').pipelines) (Q name : String) :
    g'.Takes (.node Q name) ↔
      if Q = pipeline then (p'.find? name).isSome = true else g.Takes (.node Q name) := by
  have hname : nameOf p' = pipeline :=
    (congrArg Identity.name hidentity).trans (ObjectMap.mem_of_get? hp).2
  have hget := ObjectMap.get?_modify (m := g.pipelines) (f := fun _ => p') (fun _ _ => hname) Q
  -- the pipelines of other names are looked up as before
  rw [show g.pipelines.get? pipeline = some p from hp, Option.map_some] at hget
  rw [Takes, pipeline?, hg', setPipeline, hget]
  by_cases hQ : Q = pipeline
  · rw [if_pos hQ, if_pos hQ, Option.bind_some]
  · rw [if_neg hQ, if_neg hQ]
    rfl

/-- From one program to the next a name is inserted, which was free, or deleted, which was
there, and all other names stay. -/
structure ChangesNames (g : Program) (inserts? deletes? : Option Subject) (g' : Program) :
    Prop where
  free : ∀ x, inserts? = some x → ¬g.Takes x
  there : ∀ x, deletes? = some x → g.Takes x
  takes : ∀ x, g'.Takes x ↔ inserts? = some x ∨ g.Takes x ∧ deletes? ≠ some x

theorem ChangesNames.of_same (h : ∀ x, g'.Takes x ↔ g.Takes x) : g.ChangesNames none none g' :=
  ⟨nofun, nofun, fun x => by simp [h]⟩

/-! ### Edits of nodes -/

theorem changesNames_insertNode (hp : g.pipeline? pipeline = some p) {n : Node} {r : NodeRef}
    (hins : p.insertNode n = .ok (r, p'))
    (hg' : g'.pipelines = (g.setPipeline pipeline p').pipelines) (harrays : g'.arrays = g.arrays) :
    g.ChangesNames (some (.node pipeline n.name)) none g' := by
  obtain ⟨hfree, hfind⟩ := Pipeline.find?_insertNode hins
  refine ⟨?_, nofun, ?_⟩
  · intro x hx
    rw [← Option.some.inj hx, takes_node_iff hp, hfree]
    exact Bool.false_ne_true
  · intro x
    cases x with
    | array name =>
      rw [Takes, harrays]
      simp [Takes]
    | node Q name =>
      rw [takes_node_setPipeline hp (Pipeline.identity_insertNode hins) hg', hfind]
      by_cases hQ : Q = pipeline
      · subst hQ
        rw [if_pos rfl, takes_node_iff hp]
        by_cases hname : name = n.name
        · simp [hname]
        · simp [hname, Ne.symm hname]
      · simp [hQ, Ne.symm hQ]

theorem changesNames_removeNode (hp : g.pipeline? pipeline = some p)
    (hname : (p.find? name).isSome)
    (hg' : g' = g.setPipeline pipeline (p.removeNode name)) :
    g.ChangesNames none (some (.node pipeline name)) g' := by
  refine ⟨nofun, ?_, ?_⟩
  · intro x hx
    rw [← Option.some.inj hx, takes_node_iff hp]
    exact hname
  · intro x
    cases x with
    | array key =>
      rw [hg']
      simp [Takes, setPipeline]
    | node Q key =>
      rw [takes_node_setPipeline hp (Pipeline.identity_removeNode name) (hg' ▸ rfl),
        p.find?_removeNode]
      by_cases hQ : Q = pipeline
      · subst hQ
        rw [if_pos rfl, takes_node_iff hp]
        by_cases hkey : key = name
        · simp [hkey]
        · simp [hkey, Ne.symm hkey]
      · simp [hQ, Ne.symm hQ]

theorem changesNames_modifyNode (hp : g.pipeline? pipeline = some p) (f : Node → Node) :
    g.ChangesNames none none (g.setPipeline pipeline (p.modifyNode name f)) := by
  refine ChangesNames.of_same fun x => ?_
  cases x with
  | array key => exact Iff.rfl
  | node Q key =>
    rw [takes_node_setPipeline hp (Pipeline.identity_modifyNode name f) rfl,
      Pipeline.find?_modifyNode]
    split
    case isTrue hQ => rw [hQ, takes_node_iff hp]
    case isFalse => exact Iff.rfl

/-- A flex node with an edge to a node can be inserted under a name that is free. -/
theorem exists_insertFlex (hp : g.pipeline? pipeline = some p) (hfree : p.find? name = none)
    {target : String} {r : NodeRef} (htarget : p.find? target = some r) :
    ∃ g', g.insertFlex pipeline name none (some target) = .ok g' := by
  let flex : Conditional :=
    { identity := { name, id := g.conditionalIds.next }, condition? := none, trueNext := some r,
      falseNext := none, flex := true }
  obtain ⟨_, p', hins⟩ := Pipeline.exists_insertNode (n := .conditional flex) hfree
  have hadopt : p.adopt .flex (.conditional flex) = .ok p' := by rw [Pipeline.adopt, hins]
  have hedge : p.edgeTo (some target) = .ok (some r) := by rw [Pipeline.edgeTo, htarget]
  rw [insertFlex]
  simp only [bind_eq_ok, guard_eq_ok]
  exact ⟨_, p, existingPipeline_eq_ok.mpr hp, by simp [hfree], none, rfl, some r, hedge, p', hadopt,
    rfl⟩

/-! ### Edits of register arrays -/

theorem changesNames_setArray {a b : RegisterArray} (hb : g.array? name = some b)
    (ha : nameOf a = nameOf b) : g.ChangesNames none none (g.setArray name a) := by
  refine ChangesNames.of_same fun x => ?_
  cases x with
  | node pipeline key => exact Iff.rfl
  | array key =>
    refine iff_of_eq (congrArg (· = true) (ObjectMap.contains_alter (fun c hc _ _ => ?_) key))
    rw [show g.arrays.lookup? name = some b from hb, Option.some.injEq] at hc
    rw [← hc, ha]

theorem changesNames_insertArray {s s' : Store} {size bitwidth : Nat}
    (hg : g.arrays.Consistent) (h : g.insertArray s name size bitwidth = .ok (g', s')) :
    g.ChangesNames (some (.array name)) none g' := by
  obtain ⟨arrays, harrays, rfl, -⟩ := insertArray_ok h
  have hname (id : Int) : nameOf (RegisterArray.zeros { name, id } size bitwidth [] s).1 = name :=
    rfl
  have hcontains := hg.contains_insertNew hname harrays
  refine ⟨?_, nofun, ?_⟩
  · intro x hx
    rw [← Option.some.inj hx, Takes, (ObjectMap.insertNew_eq_ok.mp harrays).1]
    exact Bool.false_ne_true
  · intro x
    cases x with
    | node pipeline key => simp [Takes, pipeline?]
    | array key =>
      rw [Takes, hcontains, Takes]
      simp [eq_comm (a := key)]

theorem changesNames_deleteArray (hg : g.arrays.Consistent) (h : g.deleteArray name = .ok g') :
    g.ChangesNames none (some (.array name)) g' := by
  obtain ⟨a, ha, rfl⟩ := deleteArray_ok h
  refine ⟨nofun, ?_, ?_⟩
  · intro x hx
    rw [← Option.some.inj hx]
    exact takes_of_has (has_array ha)
  · intro x
    cases x with
    | node pipeline key => simp [Takes, pipeline?]
    | array key =>
      rw [Takes, hg.contains_remove, Takes]
      simp [and_comm, eq_comm (a := key)]

theorem changesNames_rehashArray {s s' : Store} {r : RehashSpec} (hg : g.arrays.Consistent)
    (h : g.rehashArray s r = .ok (g', s')) : g.ChangesNames none none g' := by
  obtain ⟨target, reset, inputs, ht, hr, rfl, -⟩ := rehashArray_ok h
  obtain ⟨b, hb, hidentity⟩ := exists_reset (a := (target.rehashed inputs s).1) hg ht hr rfl
  have htarget := changesNames_setArray ht (a := (target.rehashed inputs s).1) rfl
  have hreset := changesNames_setArray hb (a := (reset.cleared (target.rehashed inputs s).2).1)
    (congrArg Identity.name hidentity.symm)
  refine ChangesNames.of_same fun x => ?_
  rw [hreset.takes, htarget.takes]
  simp

/-- A rehash finds all five arrays. -/
theorem has_of_rehashArray {s s' : Store} {r : RehashSpec}
    (h : g.rehashArray s r = .ok (g', s')) :
    ∀ name ∈ [r.target, r.recording, r.lastPos, r.counting, r.reset], g.Has (.array name) := by
  rw [rehashArray] at h
  simp only [bind_eq_ok, existingArray_eq_ok] at h
  obtain ⟨_, htarget, _, hrecording, _, hlastPos, _, hcounting, _, hreset, -⟩ := h
  simp only [List.forall_mem_cons]
  exact ⟨has_array htarget, has_array hrecording, has_array hlastPos, has_array hcounting,
    has_array hreset, List.forall_mem_nil _⟩

end Program

open Program

namespace Edit

variable {donor g g' : Program} {s s' : Store} {e : Edit}

/-- An edit inserts and deletes just what it says. -/
theorem changesNames_run (hg : g.arrays.Consistent) (h : e.run donor (g, s) = .ok (g', s')) :
    g.ChangesNames e.inserts? e.deletes? g' := by
  by_cases hnodes : e.onNodes = true
  · obtain ⟨hchange, -⟩ := nodeChange_run hnodes h
    cases hchange with
    | insert targets hp hadopt hins hids hedges hbrings hinserts hdeletes =>
      obtain ⟨actions, calculations, rfl⟩ := adoptActions_ok hadopt
      rw [hinserts, hdeletes]
      exact changesNames_insertNode hp hins rfl rfl
    | wire hp hedge hinserts hdeletes =>
      rw [hinserts, hdeletes]
      exact changesNames_modifyNode hp _
    | delete hp hn hr hinserts hdeletes =>
      rw [hinserts, hdeletes]
      exact changesNames_removeNode hp (Option.isSome_of_mem hr) rfl
  cases e with
  | insertArray name size bitwidth => exact changesNames_insertArray hg h
  | resizeArray name size =>
    obtain ⟨hg', rfl⟩ := pair_eq_ok.mp h
    obtain ⟨a, ha, rfl⟩ := resizeArray_ok hg'
    exact changesNames_setArray ha rfl
  | rewidenArray name bitwidth =>
    obtain ⟨hg', rfl⟩ := pair_eq_ok.mp h
    obtain ⟨a, ha, rfl⟩ := rewidenArray_ok hg'
    exact changesNames_setArray ha rfl
  | deleteArray name =>
    obtain ⟨hg', rfl⟩ := pair_eq_ok.mp h
    exact changesNames_deleteArray hg hg'
  | rehashArray r => exact changesNames_rehashArray hg h
  | _ => exact absurd rfl hnodes

/-- A name that is astray stays so until it is deleted. -/
theorem stray_run (h : e.run donor (g, s) = .ok (g', s')) {x : Subject} (hx : g.Stray x)
    (hdeletes : e.deletes? ≠ some x) : g'.Stray x := by
  cases x with
  | node => exact hx
  | array key =>
    by_cases he : e.onNodes = true
    · rw [Stray, (arrays_of_onNodes he h).1]
      exact hx
    cases e with
    | insertArray name size bitwidth =>
      obtain ⟨arrays, harrays, rfl, -⟩ := insertArray_ok h
      exact ObjectMap.isSome_strays_insertNew harrays hx
    | resizeArray name size =>
      obtain ⟨hg', rfl⟩ := pair_eq_ok.mp h
      obtain ⟨a, -, rfl⟩ := resizeArray_ok hg'
      rwa [Stray, strays_setArray]
    | rewidenArray name bitwidth =>
      obtain ⟨hg', rfl⟩ := pair_eq_ok.mp h
      obtain ⟨a, -, rfl⟩ := rewidenArray_ok hg'
      rwa [Stray, strays_setArray]
    | deleteArray name =>
      obtain ⟨hg', rfl⟩ := pair_eq_ok.mp h
      obtain ⟨a, -, rfl⟩ := deleteArray_ok hg'
      refine ObjectMap.isSome_strays_remove ?_ hx
      rintro rfl
      exact hdeletes rfl
    | rehashArray r =>
      obtain ⟨target, reset, inputs, -, -, rfl, -⟩ := rehashArray_ok h
      rwa [Stray, strays_setArray, strays_setArray]
    | _ => exact absurd rfl he

/-- An edit finds every object that it mentions. -/
theorem has_of_run (h : e.run donor (g, s) = .ok (g', s')) : ∀ x ∈ e.subjects, g.Has x := by
  cases e with
  | insertConditional | insertTable | insertArray => exact nofun
  | insertFlex pipeline name false? true? =>
    obtain ⟨hg, -⟩ := pair_eq_ok.mp h
    obtain ⟨p, _, _, _, _, hp, hfalse, htrue, -, -⟩ := insertFlex_ok hg
    rw [subjects, List.forall_mem_map, List.forall_mem_append]
    exact ⟨has_of_edgeTo hp hfalse, has_of_edgeTo hp htrue⟩
  | setConditionalNext pipeline name branch target? =>
    obtain ⟨hg, -⟩ := pair_eq_ok.mp h
    obtain ⟨p, e, c, hp, he, hc, -⟩ := setConditionalNext_ok hg
    rw [subjects, List.forall_mem_map, List.forall_mem_cons]
    exact ⟨(has_node_iff hp name).mpr (Pipeline.isSome_find?_of_bind hc), has_of_edgeTo hp he⟩
  | setTableNext pipeline name slot target? =>
    obtain ⟨hg, -⟩ := pair_eq_ok.mp h
    obtain ⟨p, e, t, q, hp, he, ht, -, -, -⟩ := setTableNext_ok hg
    rw [subjects, List.forall_mem_map, List.forall_mem_cons]
    exact ⟨(has_node_iff hp name).mpr (Pipeline.isSome_find?_of_bind ht), has_of_edgeTo hp he⟩
  | deleteConditional pipeline name =>
    obtain ⟨hg, -⟩ := pair_eq_ok.mp h
    obtain ⟨p, c, hp, hc, -⟩ := deleteConditional_ok hg
    exact List.forall_mem_singleton.mpr
      ((has_node_iff hp name).mpr (Pipeline.isSome_find?_of_bind hc))
  | deleteTable pipeline name =>
    obtain ⟨hg, -⟩ := pair_eq_ok.mp h
    obtain ⟨p, t, hp, ht, -⟩ := deleteTable_ok hg
    exact List.forall_mem_singleton.mpr
      ((has_node_iff hp name).mpr (Pipeline.isSome_find?_of_bind ht))
  | deleteArray name =>
    obtain ⟨hg, -⟩ := pair_eq_ok.mp h
    obtain ⟨a, ha, -⟩ := deleteArray_ok hg
    exact List.forall_mem_singleton.mpr (has_array ha)
  | resizeArray name size =>
    obtain ⟨hg, -⟩ := pair_eq_ok.mp h
    obtain ⟨a, ha, -⟩ := resizeArray_ok hg
    exact List.forall_mem_singleton.mpr (has_array ha)
  | rewidenArray name bitwidth =>
    obtain ⟨hg, -⟩ := pair_eq_ok.mp h
    obtain ⟨a, ha, -⟩ := rewidenArray_ok hg
    exact List.forall_mem_singleton.mpr (has_array ha)
  | rehashArray r =>
    rw [subjects, List.forall_mem_map]
    exact has_of_rehashArray h

end Edit

end LiveSwitch
