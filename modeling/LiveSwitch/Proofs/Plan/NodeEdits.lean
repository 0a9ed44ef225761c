import LiveSwitch.Proofs.Pipeline.Wiring
import LiveSwitch.Proofs.Plan.Edits
import LiveSwitch.Proofs.Program.Edits

/-!
# What the edits of nodes do

An edit says in advance what it inserts, what it deletes, and which events of the graphs it stands
for.  When an edit of nodes succeeds, it has done just that to one pipeline: it has inserted a node
under the next id of its kind, set an edge of a node, or deleted a node.  Everything else stays,
but for definitions that come along with a table.

## Main definitions

* `Edit.inserts?`, `Edit.deletes?`, `Edit.Brings` — what an edit inserts and deletes.
* `Log`, `Edit.log` — events of the graphs of a program, and those of an edit.
* `Edit.NodeChange` — the three ways in which an edit of nodes changes a program.

## Main results

* `Edit.nodeChange_run` — an edit of nodes changes a program in one of these ways.
-/

namespace LiveSwitch

/-! ### What an edit inserts and deletes -/

namespace Edit

/-- The object that an edit inserts. -/
def inserts? : Edit → Option Subject
  | insertConditional pipeline name => some (.node pipeline name)
  | insertFlex pipeline name _ _ => some (.node pipeline name)
  | insertTable pipeline name => some (.node pipeline name)
  | insertArray name _ _ => some (.array name)
  | _ => none

/-- The object that an edit deletes. -/
def deletes? : Edit → Option Subject
  | deleteConditional pipeline name => some (.node pipeline name)
  | deleteTable pipeline name => some (.node pipeline name)
  | deleteArray name => some (.array name)
  | _ => none

/-- No edit both inserts and deletes. -/
theorem deletes?_of_inserts? {e : Edit} {x : Subject} (h : e.inserts? = some x) :
    e.deletes? = none := by
  cases e <;> first | rfl | cases h

/-- What an edit inserts: a copy of the node of the name in the donor's pipeline of the name, or a
flex node without a condition. -/
def Brings (donor : Program) (e : Edit) (n : Node) : Prop :=
  match e with
  | insertConditional pipeline name => ∃ d id,
      (donor.pipeline? pipeline).bind (·.conditional? name) = some d ∧
        n = .conditional (d.instantiate name id)
  | insertFlex _ name _ _ => ∃ id trueNext falseNext, n = .conditional
      { identity := { name, id }, condition? := none, trueNext, falseNext, flex := true }
  | insertTable pipeline name => ∃ d id ids,
      (donor.pipeline? pipeline).bind (·.table? name) = some d ∧
        n = .table (d.instantiate name id ids)
  | _ => False

end Edit

/-! ### The events of an edit -/

/-- What happened to the graphs of a program: events, each with the pipeline it happened to. -/
abbrev Log := List (String × GraphEvent)

/-- The targets of the two branches of a new flex node. -/
def flexTargets (false? true? : Option String) : Port → Option String
  | .branch .onFalse => false?
  | .branch .onTrue => true?
  | _ => none

/-- What a deletion does to the graph of a pipeline, if it has the node. -/
def deletion (g : Program) (pipeline name : String) : Log :=
  (((g.pipeline? pipeline).bind (·.find? name)).map fun r =>
    (pipeline, GraphEvent.delete name r.slot)).toList

/-- What an edit does to the graphs of a program. -/
def Edit.log (g : Program) : Edit → Log
  | insertConditional pipeline name | insertTable pipeline name =>
    [(pipeline, .insert name fun _ => none)]
  | insertFlex pipeline name false? true? => [(pipeline, .insert name (flexTargets false? true?))]
  | setConditionalNext pipeline name branch target? =>
    [(pipeline, .wire (.port name (.branch branch)) target?)]
  | setTableNext pipeline name slot target? =>
    ((((g.pipeline? pipeline).bind (·.table? name)).bind (g.portOf? · slot)).map fun q =>
      (pipeline, GraphEvent.wire (.port name q) target?)).toList
  | deleteConditional pipeline name | deleteTable pipeline name => deletion g pipeline name
  | insertArray .. | resizeArray .. | rewidenArray .. | deleteArray .. | rehashArray _ => []

/-! ### Definitions without edges -/

theorem Conditional.edgeAt?_instantiate {c : Conditional} {name : String} {id : Int} {q : Port}
    {e : Edge} (h : (Node.conditional (c.instantiate name id)).edgeAt? q = some e) : e = none := by
  cases q with
  | branch b =>
    cases b with
    | onTrue => exact (Option.some.inj h).symm
    | onFalse => exact (Option.some.inj h).symm
  | action | hit | miss | base => cases h

/-- Null edges for some ids, after other edges. -/
theorem Table.lookup_nullEdges (ids : List Int) (m : List (Int × Edge)) (key : Int) :
    (ids.foldl (fun m id => Assoc.insert id none m) m).lookup key =
      if key ∈ ids then some none else m.lookup key := by
  induction ids generalizing m with
  | nil => rw [List.foldl_nil, if_neg List.not_mem_nil]
  | cons id ids ih =>
    rw [List.foldl_cons, ih, Assoc.lookup_insert]
    by_cases hkey : key = id
    · rw [if_pos hkey, ite_self, if_pos (List.mem_cons.mpr (Or.inl hkey))]
    · simp [hkey]

/-- The definition of a table under other ids of its actions has a null edge for each of them. -/
theorem Table.nextOf?_instantiate (t : Table) (name : String) (id : Int) (ids : List Int)
    (key : Int) :
    (t.instantiate name id ids).nextOf? key = if key ∈ ids then some none else none :=
  lookup_nullEdges ids [] key

theorem Table.edgeAt?_instantiate {t : Table} {name : String} {id : Int} {ids : List Int}
    {q : Port} {e : Edge} (h : (Node.table (t.instantiate name id ids)).edgeAt? q = some e) :
    e = none := by
  cases q with
  | branch b => cases h
  | action k =>
    replace h : (t.instantiate name id ids).nextOf? k = some e := h
    rw [nextOf?_instantiate] at h
    split at h
    · exact (Option.some.inj h).symm
    · cases h
  | hit =>
    obtain ⟨_, -, he⟩ := Option.map_eq_some_iff.mp h
    exact he.symm
  | miss =>
    obtain ⟨_, -, he⟩ := Option.map_eq_some_iff.mp h
    exact he.symm
  | base => exact (Option.some.inj h).symm

/-! ### Edits of nodes -/

theorem Program.find?_of_node? {p : Pipeline} {name : String} {n : Node}
    (h : p.node? name = some n) : ∃ r, p.find? name = some r := by
  obtain ⟨r, hr, -⟩ := Option.bind_eq_some_iff.mp h
  exact ⟨r, hr⟩

/-- A node has the next id of its kind, and the counter of its kind moves on. -/
def Node.TakesId (g : Program) (conditionalIds tableIds : IdCounter) : Node → Prop
  | .conditional c => c.identity.id = g.conditionalIds.next ∧
    conditionalIds = g.conditionalIds.bump ∧ tableIds = g.tableIds
  | .table t => t.identity.id = g.tableIds.next ∧
    conditionalIds = g.conditionalIds ∧ tableIds = g.tableIds.bump

open Program

namespace Edit

/-- What an edit of nodes does to a program: in one pipeline it inserts a node whose edges lead to
the nodes of some names, and takes an id for it; it sets an edge of a node; or it deletes a node. -/
inductive NodeChange (donor g : Program) (e : Edit) : Program → Prop where
  | insert {pipeline : String} {p p' : Pipeline} {n : Node} {r : NodeRef}
    {conditionalIds tableIds : IdCounter} {l : List Action} {g₁ : Program} {ids : List Int}
    (targets : Port → Option String) (hp : g.pipeline? pipeline = some p)
    (hadopt : adoptActions donor g l = .ok (g₁, ids)) (hins : p.insertNode n = .ok (r, p'))
    (hids : n.TakesId g conditionalIds tableIds)
    (hedges : ∀ q edge, n.edgeAt? q = some edge → edge = (targets q).bind p.find?)
    (hbrings : e.Brings donor n) (hinserts : e.inserts? = some (.node pipeline n.name))
    (hdeletes : e.deletes? = none) (hlog : e.log g = [(pipeline, .insert n.name targets)]) :
    NodeChange donor g e { g₁.setPipeline pipeline p' with conditionalIds, tableIds }
  | wire {pipeline name : String} {p : Pipeline} {q : Port} {edge : Edge}
    {target? : Option String} (hp : g.pipeline? pipeline = some p)
    (hedge : edge = target?.bind p.find?) (hinserts : e.inserts? = none)
    (hdeletes : e.deletes? = none)
    (hlog : e.log g = [(pipeline, .wire (.port name q) target?)]) :
    NodeChange donor g e (g.setPipeline pipeline (p.modifyNode name (Node.setEdge q edge)))
  | delete {pipeline name : String} {p : Pipeline} {n : Node} {r : NodeRef}
    (hp : g.pipeline? pipeline = some p) (hn : p.node? name = some n)
    (hr : p.find? name = some r) (hinserts : e.inserts? = none)
    (hdeletes : e.deletes? = some (.node pipeline name))
    (hlog : e.log g = [(pipeline, .delete name r.slot)]) :
    NodeChange donor g e (g.setPipeline pipeline (p.removeNode name))

variable {donor g g' : Program} {s s' : Store} {e : Edit}

/-- A deletion of a node that is there. -/
theorem NodeChange.of_delete {pipeline name : String} {p : Pipeline} {α : Type}
    {f : Node → Option α} {a : α} (hp : g.pipeline? pipeline = some p)
    (ha : (p.node? name).bind f = some a) (hinserts : e.inserts? = none)
    (hdeletes : e.deletes? = some (.node pipeline name))
    (hlog : e.log g = deletion g pipeline name) :
    e.NodeChange donor g (g.setPipeline pipeline (p.removeNode name)) := by
  obtain ⟨n, hn, -⟩ := Option.bind_eq_some_iff.mp ha
  obtain ⟨r, hr⟩ := find?_of_node? hn
  refine .delete hp hn hr hinserts hdeletes (hlog.trans ?_)
  rw [deletion, hp, Option.bind_some, hr]
  rfl

/-- An edit of nodes that succeeds does what it says, and leaves the store as it is. -/
theorem nodeChange_run (he : e.onNodes = true) (hrun : e.run donor (g, s) = .ok (g', s')) :
    e.NodeChange donor g g' ∧ s' = s := by
  cases e with
  | insertConditional pipeline name =>
    obtain ⟨hg, rfl⟩ := pair_eq_ok.mp hrun
    obtain ⟨p, d, r, p', hp, hd, hins, rfl⟩ := insertConditional_ok hg
    refine ⟨?_, rfl⟩
    exact .insert (l := []) (fun _ => none) hp rfl hins ⟨rfl, rfl, rfl⟩
      (fun _ _ he => Conditional.edgeAt?_instantiate he) ⟨d, _, hd, rfl⟩ rfl rfl rfl
  | insertFlex pipeline name false? true? =>
    obtain ⟨hg, rfl⟩ := pair_eq_ok.mp hrun
    obtain ⟨p, falseNext, trueNext, r, p', hp, hf, ht, hins, rfl⟩ := insertFlex_ok hg
    rw [Pipeline.edgeTo_eq_ok] at hf ht
    refine ⟨?_, rfl⟩
    refine .insert (l := []) (flexTargets false? true?) hp rfl hins ⟨rfl, rfl, rfl⟩ ?_
      ⟨_, _, _, rfl⟩ rfl rfl rfl
    intro q e he
    cases q with
    | branch b =>
      cases b with
      | onTrue => exact (Option.some.inj he).symm.trans ht.1
      | onFalse => exact (Option.some.inj he).symm.trans hf.1
    | action | hit | miss | base => cases he
  | setConditionalNext pipeline name branch target? =>
    obtain ⟨hg, rfl⟩ := pair_eq_ok.mp hrun
    obtain ⟨p, edge, c, hp, hedge, -, rfl⟩ := setConditionalNext_ok hg
    exact ⟨.wire hp (Pipeline.edgeTo_eq_ok.mp hedge).1 rfl rfl rfl, rfl⟩
  | deleteConditional pipeline name =>
    obtain ⟨hg, rfl⟩ := pair_eq_ok.mp hrun
    obtain ⟨p, c, hp, hc, rfl⟩ := deleteConditional_ok hg
    exact ⟨.of_delete hp hc rfl rfl rfl, rfl⟩
  | insertTable pipeline name =>
    obtain ⟨hg, rfl⟩ := pair_eq_ok.mp hrun
    obtain ⟨p, t, as, g₁, ids, r, p', hp, ht, -, hadopt, hins, rfl⟩ := insertTable_ok hg
    refine ⟨?_, rfl⟩
    refine .insert (fun _ => none) hp hadopt hins ?_ (fun _ _ he => Table.edgeAt?_instantiate he)
      ⟨t, _, _, ht, rfl⟩ rfl rfl rfl
    -- the actions come first, and take no ids of nodes
    obtain ⟨actions, calculations, rfl⟩ := adoptActions_ok hadopt
    exact ⟨rfl, rfl, rfl⟩
  | setTableNext pipeline name slot target? =>
    obtain ⟨hg, rfl⟩ := pair_eq_ok.mp hrun
    obtain ⟨p, edge, t, q, hp, hedge, ht, hq, -, rfl⟩ := setTableNext_ok hg
    refine ⟨.wire hp (Pipeline.edgeTo_eq_ok.mp hedge).1 rfl rfl ?_, rfl⟩
    rw [Edit.log, hp, Option.bind_some, ht, Option.bind_some, hq]
    rfl
  | deleteTable pipeline name =>
    obtain ⟨hg, rfl⟩ := pair_eq_ok.mp hrun
    obtain ⟨p, t, hp, ht, rfl⟩ := deleteTable_ok hg
    exact ⟨.of_delete hp ht rfl rfl rfl, rfl⟩
  | insertArray | resizeArray | rewidenArray | deleteArray | rehashArray => cases he

end Edit

end LiveSwitch
