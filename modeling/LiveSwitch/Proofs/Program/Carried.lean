import LiveSwitch.Proofs.Plan.Layouts
import LiveSwitch.Proofs.Plan.Sound
import LiveSwitch.Proofs.Program.Lookup

/-!
# What a program carries on

Whatever an edit does, most of a program goes through it as it was.  Calculations are only added,
under new names, and so are actions under new ids, as long as their counter has not come round.
Pipelines keep their identity and their unknown fields, and so does every register array that is
not deleted, also when its cells are replaced, as long as its name does not go astray.  A node that
is not deleted keeps all but its edges.

## Main definitions

* `Program.Carries` — a program goes on in another one, some objects aside.

## Main results

* `Edit.frame_of_onNodes` — what an edit of nodes can change.
* `Edit.carries_run`, `Program.carries_commitArrays` — an edit and a commit carry a program on.
-/

namespace LiveSwitch

namespace Program

variable {g g' g'' donor : Program} {s s' : Store}

/-! ### Copies from a donor -/

theorem Copied.calculation? {key : String} {c : Calculation} (h : Copied donor g g')
    (hc : g.calculation? key = some c) : g'.calculation? key = some c := by
  induction h with
  | refl => exact hc
  | calculation _ hcopy ih =>
    obtain ⟨rfl, -⟩ | ⟨d, calculations, -, -, hins, rfl⟩ := adoptCalculation_ok hcopy
    · exact ih
    · exact ObjectMap.get?_of_insert hins ih
  | action _ _ ih => exact ih

/-- Copies keep the counter of actions ahead. -/
theorem Copied.counted (h : Copied donor g g') (hg : g.actions.Counted) :
    g'.actions.Counted := by
  induction h with
  | refl => exact hg
  | calculation _ hcopy ih =>
    obtain ⟨rfl, -⟩ | ⟨d, calculations, -, -, -, rfl⟩ := adoptCalculation_ok hcopy
    · exact ih
    · exact ih
  | action _ a ih => exact ih.insertCopy a

/-- As long as the ids of actions do not come round, copies keep all actions as they are. -/
theorem Copied.action? (h : Copied donor g g') (hg : g.actions.Counted)
    (hmax : g'.actions.BelowMax) :
    g.actions.BelowMax ∧ ∀ id b, g.action? id = some b → g'.action? id = some b := by
  induction h with
  | refl => exact ⟨hmax, fun _ _ hb => hb⟩
  | calculation _ hcopy ih =>
    obtain ⟨rfl, -⟩ | ⟨d, calculations, -, -, -, rfl⟩ := adoptCalculation_ok hcopy
    · exact ih hmax
    · exact ih hmax
  | @action g' hcopied a ih =>
    obtain ⟨-, hold⟩ := ActionTable.lt_of_insertCopy hmax
    obtain ⟨hbelow, hkept⟩ := ih hold
    refine ⟨hbelow, fun id b hb => ?_⟩
    have hb' := hkept id b hb
    -- the next id is not that of an action
    have hne : id ≠ g'.actions.nextId := by
      rintro rfl
      have hlt := hcopied.counted hg hold b (List.mem_of_find?_eq_some hb')
      have hid := List.find?_some hb'
      exact absurd (beq_iff_eq.mp hid) (Int.ne_of_lt hlt)
    exact (g'.actions.get?_insertCopy a id).trans ((if_neg hne).trans hb')

/-! ### Carrying on -/

/-- A name that is not stray is that of the array that it leads to. -/
theorem mem_of_array?_of_not_stray {name : String} {a : RegisterArray}
    (h : ¬g.Stray (.array name)) (ha : g.array? name = some a) :
    a ∈ g.arrays.objects ∧ nameOf a = name := by
  rw [array?, ObjectMap.lookup?_of_not_stray (not_stray_array.mp h)] at ha
  exact ObjectMap.mem_of_get? ha

/-- A program goes on in another one: what the document has beyond the objects stays, and so do all
objects but those that are gone, nodes up to a relation, arrays unless their names go astray, and
actions as long as none has the largest id, after which their ids come round. -/
structure Carries (R : Node → Node → Prop) (gone : Subject → Prop) (g g' : Program) : Prop where
  extra : g'.extra = g.extra
  pipeline : ∀ P p, g.pipeline? P = some p → ∃ p', g'.pipeline? P = some p' ∧
    p'.identity = p.identity ∧ p'.extra = p.extra
  node : ∀ P N n, ¬gone (.node P N) → g.node? P N = some n → ∃ n', g'.node? P N = some n' ∧ R n n'
  array : ∀ N, ¬gone (.array N) → ¬g'.Stray (.array N) → ¬g.Stray (.array N) ∧
    ∀ a, g.array? N = some a →
      ∃ a', g'.array? N = some a' ∧ a'.identity = a.identity ∧ a'.extra = a.extra
  action : g'.actions.BelowMax → g.actions.BelowMax ∧
    ∀ id a, g.action? id = some a → g'.action? id = some a
  calculation : ∀ N c, g.calculation? N = some c → g'.calculation? N = some c

namespace Carries

variable {R : Node → Node → Prop} {gone gone' : Subject → Prop}

theorem refl (hR : ∀ n, R n n) {gone : Subject → Prop} (g : Program) :
    Carries R gone g g where
  extra := rfl
  pipeline _ p hp := ⟨p, hp, rfl, rfl⟩
  node _ _ n _ hn := ⟨n, hn, hR n⟩
  array _ _ hstray := ⟨hstray, fun a ha => ⟨a, ha, rfl, rfl⟩⟩
  action hmax := ⟨hmax, fun _ _ ha => ha⟩
  calculation _ _ hc := hc

theorem trans (h : Carries R gone g g') (h' : Carries R gone' g' g'')
    (hR : ∀ {n n' n''}, R n n' → R n' n'' → R n n'') :
    Carries R (fun x => gone x ∨ gone' x) g g'' where
  extra := h'.extra.trans h.extra
  pipeline P p hp := by
    obtain ⟨p', hp', hidentity, hextra⟩ := h.pipeline P p hp
    obtain ⟨p'', hp'', hidentity', hextra'⟩ := h'.pipeline P p' hp'
    exact ⟨p'', hp'', hidentity'.trans hidentity, hextra'.trans hextra⟩
  node P N n hgone hn := by
    obtain ⟨n', hn', hr⟩ := h.node P N n (fun hg => hgone (Or.inl hg)) hn
    obtain ⟨n'', hn'', hr'⟩ := h'.node P N n' (fun hg => hgone (Or.inr hg)) hn'
    exact ⟨n'', hn'', hR hr hr'⟩
  array N hgone hstray := by
    obtain ⟨hstray', hkept'⟩ := h'.array N (fun hg => hgone (Or.inr hg)) hstray
    obtain ⟨hstray₀, hkept⟩ := h.array N (fun hg => hgone (Or.inl hg)) hstray'
    refine ⟨hstray₀, fun a ha => ?_⟩
    obtain ⟨a', ha', hidentity, hextra⟩ := hkept a ha
    obtain ⟨a'', ha'', hidentity', hextra'⟩ := hkept' a' ha'
    exact ⟨a'', ha'', hidentity'.trans hidentity, hextra'.trans hextra⟩
  action hmax := by
    obtain ⟨hmax', hkept'⟩ := h'.action hmax
    obtain ⟨hmax₀, hkept⟩ := h.action hmax'
    exact ⟨hmax₀, fun id a ha => hkept' id a (hkept id a ha)⟩
  calculation N c hc := h'.calculation N c (h.calculation N c hc)

theorem mono {R' : Node → Node → Prop} (h : Carries R gone g g') (hR : ∀ n n', R n n' → R' n n')
    (hgone : ∀ x, gone x → gone' x) : Carries R' gone' g g' where
  extra := h.extra
  pipeline := h.pipeline
  node P N n hn hnode := by
    obtain ⟨n', hn', hr⟩ := h.node P N n (fun hg => hn (hgone _ hg)) hnode
    exact ⟨n', hn', hR n n' hr⟩
  array N ha := h.array N fun hg => ha (hgone _ hg)
  action := h.action
  calculation := h.calculation

end Carries

/-- A commit only settles arrays. -/
theorem carries_commitArrays (g : Program) (s : Store) {gone : Subject → Prop} :
    Carries Eq gone g (g.commitArrays s).1 where
  extra := rfl
  pipeline _ p hp := ⟨p, hp, rfl, rfl⟩
  node _ _ n _ hn := ⟨n, hn, rfl⟩
  array N _ hstray := by
    refine ⟨hstray, fun a ha => ?_⟩
    rw [array?_commitArrays, ha]
    exact ⟨a.settled, rfl, rfl, rfl⟩
  action hmax := ⟨hmax, fun _ _ ha => ha⟩
  calculation _ _ hc := hc

theorem pipeline?_setPipeline {pipeline : String} {p p' : Pipeline}
    (hp : g.pipeline? pipeline = some p) (hname : p'.name = p.name) (P : String) :
    (g.setPipeline pipeline p').pipeline? P =
      if P = pipeline then some p' else g.pipeline? P := by
  have hname' : nameOf p' = pipeline := hname.trans (ObjectMap.mem_of_get? hp).2
  have hget := ObjectMap.get?_modify (m := g.pipelines) (f := fun _ => p') (fun _ _ => hname') P
  rw [show g.pipelines.get? pipeline = some p from hp, Option.map_some] at hget
  exact hget

/-- Every pipeline stays when one of them changes in its graph. -/
theorem exists_pipeline_setPipeline {pipeline P : String} {p p' q : Pipeline}
    (hp : g.pipeline? pipeline = some p) (hidentity : p'.identity = p.identity)
    (hextra : p'.extra = p.extra) (hq : g.pipeline? P = some q) :
    ∃ q', (g.setPipeline pipeline p').pipeline? P = some q' ∧ q'.identity = q.identity ∧
      q'.extra = q.extra := by
  have hset := pipeline?_setPipeline hp (congrArg Identity.name hidentity) P
  by_cases hP : P = pipeline
  · subst hP
    rw [hp, Option.some.injEq] at hq
    subst hq
    rw [if_pos rfl] at hset
    exact ⟨p', hset, hidentity, hextra⟩
  · rw [if_neg hP] at hset
    exact ⟨q, hset.trans hq, rfl, rfl⟩

end Program

open Program

namespace Edit

variable {donor g g' : Program} {s s' : Store} {log : Log} {e : Edit}

/-- An edit of nodes copies definitions, changes one pipeline in its graph and takes ids. -/
theorem frame_of_onNodes (he : e.onNodes = true) (hrun : e.run donor (g, s) = .ok (g', s')) :
    ∃ (as : List Action) (g₁ : Program) (ids : List Int) (pipeline : String) (p p' : Pipeline),
      adoptActions donor g as = .ok (g₁, ids) ∧ g.pipeline? pipeline = some p ∧
      p'.identity = p.identity ∧ p'.extra = p.extra ∧
      g' = { g₁.setPipeline pipeline p' with
        conditionalIds := g'.conditionalIds, tableIds := g'.tableIds } := by
  obtain ⟨hchange, -⟩ := nodeChange_run he hrun
  cases hchange with
  | insert _ hp hadopt hins =>
    exact ⟨_, _, _, _, _, _, hadopt, hp, Pipeline.identity_insertNode hins,
      Pipeline.extra_insertNode hins, rfl⟩
  | wire hp =>
    exact ⟨[], _, _, _, _, _, rfl, hp, Pipeline.identity_modifyNode _ _,
      Pipeline.extra_modifyNode _ _, rfl⟩
  | delete hp =>
    exact ⟨[], _, _, _, _, _, rfl, hp, Pipeline.identity_removeNode _,
      Pipeline.extra_removeNode _, rfl⟩

/-- Edits keep the names and ids of pipelines. -/
theorem consistent_pipelines_run (h : g.pipelines.Consistent)
    (hrun : e.run donor (g, s) = .ok (g', s')) : g'.pipelines.Consistent := by
  by_cases hnodes : e.onNodes = false
  · obtain ⟨hframe, -⟩ := frame_of_not_onNodes hnodes hrun
    rw [hframe]
    exact h
  · obtain ⟨as, g₁, ids, pipeline, p, p', hadopt, hp, hidentity, -, hframe⟩ :=
      frame_of_onNodes (Bool.not_eq_false _ ▸ hnodes) hrun
    obtain ⟨actions, calculations, rfl⟩ := adoptActions_ok hadopt
    rw [hframe]
    exact consistent_setPipeline h hp hidentity

/-- The arrays keep their identities and unknown fields when one of them gives way to one that has
these. -/
theorem exists_mem_setArray (hg : g.arrays.Consistent) {name : String} {b b' : RegisterArray}
    (hb : g.array? name = some b) (hidentity : b'.identity = b.identity)
    (hextra : b'.extra = b.extra) {a : RegisterArray} (ha : a ∈ g.arrays.objects) :
    ∃ a' ∈ (g.setArray name b').arrays.objects, a'.identity = a.identity ∧ a'.extra = a.extra := by
  refine ⟨_, (mem_setArray hb).mpr ⟨a, ha, rfl⟩, ?_⟩
  split
  case isTrue hname =>
    rw [ObjectMap.eq_of_name_eq hg.names ha (mem_of_array? hb) hname]
    exact ⟨hidentity, hextra⟩
  case isFalse => exact ⟨rfl, rfl⟩

/-- An array that is not deleted, and whose name does not go astray, keeps its identity and its
unknown fields. -/
theorem exists_mem_run (hg : g.arrays.Consistent) (hrun : e.run donor (g, s) = .ok (g', s'))
    {a : RegisterArray} (ha : a ∈ g.arrays.objects)
    (hdeletes : e.deletes? ≠ some (.array (nameOf a))) (hstray : ¬g'.Stray (.array (nameOf a))) :
    ∃ a' ∈ g'.arrays.objects, a'.identity = a.identity ∧ a'.extra = a.extra := by
  by_cases he : e.onNodes = true
  · rw [(arrays_of_onNodes he hrun).1]
    exact ⟨a, ha, rfl, rfl⟩
  have hlookup := not_stray_array.mp hstray
  cases e with
  | insertArray name size bitwidth =>
    obtain ⟨arrays, harrays, rfl, rfl⟩ := insertArray_ok hrun
    exact ⟨a, hg.mem_insertNew harrays ha hlookup, rfl, rfl⟩
  | resizeArray name size =>
    obtain ⟨hg', rfl⟩ := pair_eq_ok.mp hrun
    obtain ⟨b, hb, rfl⟩ := resizeArray_ok hg'
    exact exists_mem_setArray hg hb (show (b.resized size).identity = b.identity from rfl) rfl ha
  | rewidenArray name width =>
    obtain ⟨hg', rfl⟩ := pair_eq_ok.mp hrun
    obtain ⟨b, hb, rfl⟩ := rewidenArray_ok hg'
    exact exists_mem_setArray hg hb (show (b.rewidened width).identity = b.identity from rfl) rfl
      ha
  | deleteArray name =>
    obtain ⟨hg', rfl⟩ := pair_eq_ok.mp hrun
    obtain ⟨b, -, rfl⟩ := deleteArray_ok hg'
    have hne : nameOf a ≠ name := fun heq =>
      hdeletes (congrArg (fun x => some (Subject.array x)) heq.symm)
    exact ⟨a, hg.mem_remove ha hne hlookup, rfl, rfl⟩
  | rehashArray r =>
    obtain ⟨target, reset, inputs, ht, hr, rfl, rfl⟩ := rehashArray_ok hrun
    obtain ⟨a₁, ha₁, hidentity, hextra⟩ := exists_mem_setArray hg ht
      (show (target.rehashed inputs s).1.identity = target.identity from rfl) rfl ha
    -- the array to be cleared may be the one that has just got its marks
    have hg₁ := consistent_setArray hg ht
      (show (target.rehashed inputs s).1.identity = target.identity from rfl)
    obtain ⟨b, hb, hb'⟩ :=
      exists_reset (a := (target.rehashed inputs s).1) hg ht hr rfl
    obtain ⟨c, hc, hc', hextra'⟩ := exists_mem_setArray hg ht
      (show (target.rehashed inputs s).1.identity = target.identity from rfl) rfl
      (mem_of_array? hr)
    obtain rfl : b = c := ObjectMap.eq_of_name_eq hg₁.names (mem_of_array? hb) hc
      (congrArg Identity.name (hb'.trans hc'.symm))
    obtain ⟨a₂, ha₂, hidentity₂, hextra₂⟩ := exists_mem_setArray hg₁ hb
      (show (reset.cleared (target.rehashed inputs s).2).1.identity = b.identity from hb'.symm)
      hextra'.symm ha₁
    exact ⟨a₂, ha₂, hidentity₂.trans hidentity, hextra₂.trans hextra⟩
  | _ => exact absurd rfl he

/-- Edits keep the counter of actions ahead. -/
theorem counted_run (hg : g.actions.Counted) (hrun : e.run donor (g, s) = .ok (g', s')) :
    g'.actions.Counted := by
  by_cases hnodes : e.onNodes = false
  · obtain ⟨hframe, -⟩ := frame_of_not_onNodes hnodes hrun
    rw [hframe]
    exact hg
  · obtain ⟨as, g₁, ids, _, _, _, hadopt, -, -, -, hframe⟩ :=
      frame_of_onNodes (Bool.not_eq_false _ ▸ hnodes) hrun
    rw [hframe]
    exact (copied_adoptActions hadopt).counted hg

/-- An edit carries a program on: what it deletes is gone, and other nodes keep all but their
edges. -/
theorem carries_run (h : g.Follows log) (harrays : g.arrays.Consistent) (hg : g.actions.Counted)
    (hrun : e.run donor (g, s) = .ok (g', s')) :
    Carries Node.SameBody (e.deletes? = some ·) g g' := by
  have hafter := nodesAfter_run h hrun
  have hnode : ∀ P N n, e.deletes? ≠ some (.node P N) → g.node? P N = some n →
      ∃ n', g'.node? P N = some n' ∧ n.SameBody n' := by
    intro P N n hdeletes hn
    -- a name that has a node is not free for an insertion
    have hinserts : e.inserts? ≠ some (.node P N) := by
      intro heq
      rw [hafter.free P N heq] at hn
      cases hn
    have hkept := hafter.kept P N hinserts hdeletes
    rwa [hn, Option.map_some, Option.map_eq_some_iff] at hkept
  have harray : ∀ N, e.deletes? ≠ some (.array N) → ¬g'.Stray (.array N) →
      ¬g.Stray (.array N) ∧ ∀ a, g.array? N = some a →
        ∃ a', g'.array? N = some a' ∧ a'.identity = a.identity ∧ a'.extra = a.extra := by
    intro N hdeletes hstray
    have hstray' : ¬g.Stray (.array N) := fun h => hstray (stray_run hrun h hdeletes)
    refine ⟨hstray', fun a ha => ?_⟩
    -- a name that is not stray is that of the array that it leads to
    obtain ⟨hmem, rfl⟩ := mem_of_array?_of_not_stray hstray' ha
    obtain ⟨a', ha', hidentity, hextra⟩ := exists_mem_run harrays hrun hmem hdeletes hstray
    have hlookup := (consistent_run harrays hrun).lookup?_of_mem ha'
    rw [show nameOf a' = nameOf a from congrArg Identity.name hidentity] at hlookup
    exact ⟨a', hlookup, hidentity, hextra⟩
  by_cases hnodes : e.onNodes = false
  · obtain ⟨hframe, -⟩ := frame_of_not_onNodes hnodes hrun
    refine ⟨by rw [hframe], fun P p hp => ⟨p, ?_, rfl, rfl⟩, hnode, harray, fun hmax => ?_,
      fun N c hc => ?_⟩
    · rw [hframe]
      exact hp
    · rw [hframe] at hmax ⊢
      exact ⟨hmax, fun _ _ ha => ha⟩
    · rw [hframe]
      exact hc
  · obtain ⟨as, g₁, ids, pipeline, p, p', hadopt, hp, hidentity, hextra, hframe⟩ :=
      frame_of_onNodes (Bool.not_eq_false _ ▸ hnodes) hrun
    have hcalculations : g'.calculations = g₁.calculations := by
      rw [hframe]
      rfl
    -- the donor's actions come first, then one pipeline is set
    refine ⟨?_, fun P q hq => ?_, hnode, harray, fun hmax => ?_, fun N c hc => ?_⟩
    · obtain ⟨actions, calculations, rfl⟩ := adoptActions_ok hadopt
      rw [hframe]
      rfl
    · obtain ⟨actions, calculations, rfl⟩ := adoptActions_ok hadopt
      rw [hframe]
      exact exists_pipeline_setPipeline hp hidentity hextra hq
    · rw [hframe] at hmax ⊢
      exact (copied_adoptActions hadopt).action? hg hmax
    · rw [calculation?, hcalculations]
      exact (copied_adoptActions hadopt).calculation? hc

end Edit

end LiveSwitch
