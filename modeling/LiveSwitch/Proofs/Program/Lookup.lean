import LiveSwitch.Proofs.Program.Names
import LiveSwitch.Proofs.Program.Wiring

/-!
# Nodes after an edit

An edit inserts one node at most or deletes one at most, and it changes edges.  Everything else
about the nodes stays: a node that the edit neither inserts nor deletes is the same but for its
edges, wherever its slot is.  A node that is inserted is a copy of the definition of its name in
the donor, or a flex node.

## Main definitions

* `Node.unlinked`, `Node.SameBody` — a node without its edges, and nodes that are the same then.
* `Program.NodesAfter` — the nodes before and after an edit.

## Main results

* `Edit.nodesAfter_run` — the nodes after an edit.
-/

namespace LiveSwitch

/-! ### Nodes without their edges -/

/-- A conditional without its edges. -/
def Conditional.unlinked (c : Conditional) : Conditional :=
  { c with trueNext := none, falseNext := none }

/-- A table without its edges. -/
def Table.unlinked (t : Table) : Table :=
  { t with nextByAction := [], hitNext? := none, missNext? := none, baseNext := none }

namespace Node

/-- A node without its edges. -/
def unlinked : Node → Node
  | conditional c => conditional c.unlinked
  | table t => table t.unlinked

@[simp] theorem unlinked_setEdge (q : Port) (e : Edge) (n : Node) :
    (n.setEdge q e).unlinked = n.unlinked := by
  cases n with
  | conditional c => cases q with
    | branch b => cases b <;> rfl
    | action | hit | miss | base => rfl
  | table t => cases q <;> rfl

@[simp] theorem identity_unlinked (n : Node) : n.unlinked.identity = n.identity := by
  cases n <;> rfl

/-- Two nodes are the same but for their edges. -/
def SameBody (n n' : Node) : Prop := n'.unlinked = n.unlinked

theorem SameBody.refl (n : Node) : n.SameBody n := Eq.refl _

theorem SameBody.trans {n n' n'' : Node} (h : n.SameBody n') (h' : n'.SameBody n'') :
    n.SameBody n'' :=
  Eq.trans h' h

end Node

/-! ### Programs -/

namespace Program

variable {g g' donor : Program} {log : Log} {pipeline name : String} {p p' : Pipeline}

theorem node?_eq (hp : g.pipeline? pipeline = some p) (name : String) :
    g.node? pipeline name = p.node? name := by
  rw [node?, hp, Option.bind_some]

/-- The nodes after one pipeline was changed. -/
theorem node?_setPipeline (hp : g.pipeline? pipeline = some p)
    (hidentity : p'.identity = p.identity)
    (hg' : g'.pipelines = (g.setPipeline pipeline p').pipelines) (Q name : String) :
    g'.node? Q name = if Q = pipeline then p'.node? name else g.node? Q name := by
  have hname : nameOf p' = pipeline :=
    (congrArg Identity.name hidentity).trans (ObjectMap.mem_of_get? hp).2
  have hget := ObjectMap.get?_modify (m := g.pipelines) (f := fun _ => p') (fun _ _ => hname) Q
  rw [show g.pipelines.get? pipeline = some p from hp, Option.map_some] at hget
  rw [node?, pipeline?, hg', setPipeline, hget]
  split
  · rfl
  · rfl

/-- The nodes before and after an edit that inserts and deletes one node at most.  A node that was
there before stays but for its edges. -/
structure NodesAfter (g : Program) (inserts? deletes? : Option Subject) (new : Node → Prop)
    (g' : Program) : Prop where
  kept : ∀ P N, inserts? ≠ some (.node P N) → deletes? ≠ some (.node P N) →
    (g'.node? P N).map Node.unlinked = (g.node? P N).map Node.unlinked
  free : ∀ P N, inserts? = some (.node P N) → g.node? P N = none
  brought : ∀ P N, inserts? = some (.node P N) → ∃ n, g'.node? P N = some n ∧ new n
  gone : ∀ P N, deletes? = some (.node P N) → g'.node? P N = none

/-- The pipelines stay as they are. -/
theorem NodesAfter.of_pipelines (hg' : g'.pipelines = g.pipelines)
    {inserts? deletes? : Option Subject} (hinserts : ∀ P N, inserts? ≠ some (.node P N))
    (hdeletes : ∀ P N, deletes? ≠ some (.node P N)) (new : Node → Prop) :
    g.NodesAfter inserts? deletes? new g' where
  kept P N _ _ := by rw [node?, pipeline?, hg', node?, pipeline?]
  free P N h := absurd h (hinserts P N)
  brought P N h := absurd h (hinserts P N)
  gone P N h := absurd h (hdeletes P N)

theorem Follows.nodesAfter_insertNode (h : g.Follows log) (hp : g.pipeline? pipeline = some p)
    {n : Node} {r : NodeRef} (hins : p.insertNode n = .ok (r, p')) {new : Node → Prop} (hn : new n)
    (hg' : g'.pipelines = (g.setPipeline pipeline p').pipelines) :
    g.NodesAfter (some (.node pipeline n.name)) none new g' := by
  obtain ⟨seat, hseat⟩ := h.get hp
  have hset := node?_setPipeline hp (Pipeline.identity_insertNode hins) hg'
  have hfind := (Pipeline.find?_insertNode hins).1
  refine ⟨fun P N hne _ => ?_, fun P N heq => ?_, fun P N heq => ⟨n, ?_, hn⟩, nofun⟩
  · rw [hset, hseat.indexed.node?_insertNode hins]
    by_cases hP : P = pipeline
    · subst hP
      rw [if_pos rfl, if_neg fun hN => hne (by rw [hN]), node?_eq hp]
    · rw [if_neg hP]
  · cases heq
    rw [node?_eq hp, Pipeline.node?, hfind, Option.bind_none]
  · cases heq
    rw [hset, if_pos rfl, hseat.indexed.node?_insertNode hins, if_pos rfl]

theorem Follows.nodesAfter_removeNode (h : g.Follows log) (hp : g.pipeline? pipeline = some p)
    (name : String) (new : Node → Prop) :
    g.NodesAfter none (some (.node pipeline name)) new
      (g.setPipeline pipeline (p.removeNode name)) := by
  obtain ⟨seat, hseat⟩ := h.get hp
  have hset := node?_setPipeline hp (Pipeline.identity_removeNode name) rfl
  refine ⟨fun P N _ hne => ?_, nofun, nofun, fun P N heq => ?_⟩
  · rw [hset, hseat.indexed.node?_removeNode]
    by_cases hP : P = pipeline
    · subst hP
      rw [if_pos rfl, if_neg fun hN => hne (by rw [hN]), node?_eq hp]
    · rw [if_neg hP]
  · cases heq
    rw [hset, if_pos rfl, hseat.indexed.node?_removeNode, if_pos rfl]

/-- An edge is set. -/
theorem Follows.nodesAfter_setEdge (h : g.Follows log) (hp : g.pipeline? pipeline = some p)
    (name : String) (q : Port) (e : Edge) (new : Node → Prop) :
    g.NodesAfter none none new
      (g.setPipeline pipeline (p.modifyNode name (Node.setEdge q e))) := by
  obtain ⟨seat, hseat⟩ := h.get hp
  have hset := node?_setPipeline hp (Pipeline.identity_modifyNode name (Node.setEdge q e)) rfl
  refine ⟨fun P N _ _ => ?_, nofun, nofun, nofun⟩
  rw [hset, hseat.indexed.node?_modifyNode]
  by_cases hP : P = pipeline
  · subst hP
    rw [if_pos rfl, node?_eq hp]
    by_cases hN : N = name
    · rw [if_pos hN, Option.map_map]
      exact congrArg (fun f => (p.node? N).map f) (funext fun n => Node.unlinked_setEdge q e n)
    · rw [if_neg hN]
  · rw [if_neg hP]

end Program

/-! ### All edits -/

namespace Edit

open Program

variable {donor g g' : Program} {s s' : Store} {log : Log} {e : Edit}

theorem not_node_of_not_onNodes (h : e.onNodes = false) :
    (∀ P N, e.inserts? ≠ some (.node P N)) ∧ ∀ P N, e.deletes? ≠ some (.node P N) := by
  cases e <;> simp [inserts?, deletes?, onNodes] at h ⊢

/-- The nodes after an edit. -/
theorem nodesAfter_run (h : g.Follows log) (hrun : e.run donor (g, s) = .ok (g', s')) :
    g.NodesAfter e.inserts? e.deletes? (e.Brings donor) g' := by
  -- an edit of arrays leaves the pipelines alone, the others change one pipeline
  by_cases hnodes : e.onNodes = false
  · obtain ⟨hframe, -⟩ := frame_of_not_onNodes hnodes hrun
    have hpipelines : g'.pipelines = g.pipelines := by rw [hframe]
    obtain ⟨hinserts, hdeletes⟩ := not_node_of_not_onNodes hnodes
    exact .of_pipelines hpipelines hinserts hdeletes _
  obtain ⟨hchange, -⟩ := nodeChange_run (Bool.not_eq_false _ ▸ hnodes) hrun
  cases hchange with
  | insert targets hp hadopt hins hids hedges hbrings hinserts hdeletes =>
    obtain ⟨actions, calculations, rfl⟩ := adoptActions_ok hadopt
    rw [hinserts, hdeletes]
    exact h.nodesAfter_insertNode hp hins hbrings rfl
  | wire hp hedge hinserts hdeletes =>
    rw [hinserts, hdeletes]
    exact h.nodesAfter_setEdge hp _ _ _ _
  | delete hp hn hr hinserts hdeletes =>
    rw [hinserts, hdeletes]
    exact h.nodesAfter_removeNode hp _ _

end Edit

end LiveSwitch
