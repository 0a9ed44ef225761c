import LiveSwitch.Proofs.Program.Paths
import LiveSwitch.Proofs.Switch.Edges
import LiveSwitch.Proofs.Switch.Reloading
import Mathlib.Data.List.Chain
import Mathlib.Data.List.Perm.Subperm
import Mathlib.Logic.Relation

/-!
# Pipelines without cycles

Whatever edge a packet follows is one of the edges that its node has, whether the node is a
conditional or a table, and whether the table was hit or missed.  So the nodes on a path are linked
one to the next, and where no node is linked to itself over others, no path comes by a node twice.
Such a pipeline with at most as many nodes as a packet may visit never has too many steps.

## Main definitions

* `Node.edges` — all edges of a node.
* `Pipeline.Links`, `Pipeline.Acyclic` — an edge of one node refers to another; there is no cycle.

## Main results

* `Node.Passes.mem_edges` — a packet follows one of the edges of its node.
* `Pipeline.Path.exists_chain` — the nodes on a path are linked one to the next.
* `Pipeline.Path.exists_nodup` — without cycles they are different.
* `Program.never_too_many_steps` — without cycles no node is visited twice and no packet has too
  many steps.
-/

namespace LiveSwitch

/-- All edges of a node. -/
def Node.edges : Node → List Edge
  | conditional c => [c.trueNext, c.falseNext]
  | table t => t.edges

namespace Pipeline

/-- An edge of one node of a pipeline refers to another one. -/
def Links (p : Pipeline) (a b : Node) : Prop :=
  a ∈ p.nodes ∧ ∃ r, some r ∈ a.edges ∧ p.resolve? r = some b

/-- No node is linked to itself, directly or over others. -/
def Acyclic (p : Pipeline) : Prop := ∀ a, ¬Relation.TransGen p.Links a a

end Pipeline

/-! ### The edges that packets follow -/

variable {g : Program} {p : Pipeline}

theorem Table.mem_edges_of_nextOf? {t : Table} {id : Int} {e : Edge} (h : t.nextOf? id = some e) :
    e ∈ t.nextByAction.map Prod.snd :=
  List.mem_map.mpr ⟨(id, e), Assoc.mem_of_lookup h, rfl⟩

theorem Table.Selects.mem_edges {t : Table} {id? : Option Int} {e : Edge} (h : t.Selects id? e) :
    e ∈ t.edges := by
  rw [Table.edges]
  cases h with
  | hit h => simp [h]
  | action _ ha => simp [Table.mem_edges_of_nextOf? ha]
  | miss h => simp [h]
  | unmapped | base => simp

/-- A packet follows one of the edges of the node that it gets through. -/
theorem Node.Passes.mem_edges {n : Node} {m m' : Machine} {step : Step} {next : Edge}
    (h : n.Passes g m step next m') : next ∈ n.edges := by
  cases h with
  | unconditioned | holds | refuted => simp [Node.edges]
  | hit _ _ hnext | default _ _ _ hnext | noDefault _ _ hnext => exact hnext.mem_edges

namespace Pipeline

/-- The nodes on a path, and the one that it goes on to, are linked one to the next. -/
theorem Path.exists_chain {e e' : Edge} {m m' : Machine} {steps : List Step}
    (h : Path g p e m steps e' m') : ∃ ns : List Node, ns.map Node.name = steps.map Step.name ∧
      (ns ++ (e'.bind p.resolve?).toList).head? = e.bind p.resolve? ∧
      (ns ++ (e'.bind p.resolve?).toList).IsChain p.Links ∧
      ∀ n ∈ ns ++ (e'.bind p.resolve?).toList, n ∈ p.nodes := by
  induction h with
  | here e m =>
    refine ⟨[], rfl, ?_, ?_, ?_⟩
    · cases e.bind p.resolve? <;> rfl
    · cases e.bind p.resolve? <;> simp
    · intro n hn
      rw [List.nil_append, Option.mem_toList] at hn
      obtain ⟨r, -, hr⟩ := Option.bind_eq_some_iff.mp hn
      exact mem_nodes_of_resolve? hr
  | @visit r n m m₁ m' step steps next e hnode hpass _ ih =>
    obtain ⟨ns, hnames, hhead, hchain, hmem⟩ := ih
    have hn : n ∈ p.nodes := mem_nodes_of_resolve? hnode
    refine ⟨n :: ns, ?_, hnode.symm, ?_, List.forall_mem_cons.mpr ⟨hn, hmem⟩⟩
    · rw [List.map_cons, List.map_cons, hnames, hpass.name_step]
    · refine hchain.cons fun b hb => ?_
      rw [hhead] at hb
      obtain ⟨r', rfl, hr'⟩ := Option.bind_eq_some_iff.mp hb
      exact ⟨hn, r', hpass.mem_edges, hr'⟩

/-- Where there is no cycle, the nodes on a path and the one that it goes on to are different. -/
theorem Path.exists_nodup (hacyclic : p.Acyclic) {e e' : Edge} {m m' : Machine} {steps : List Step}
    (h : Path g p e m steps e' m') : ∃ ns : List Node, ns.map Node.name = steps.map Step.name ∧
      (ns ++ (e'.bind p.resolve?).toList).Nodup ∧
      ∀ n ∈ ns ++ (e'.bind p.resolve?).toList, n ∈ p.nodes := by
  obtain ⟨ns, hnames, -, hchain, hmem⟩ := h.exists_chain
  refine ⟨ns, hnames, ?_, hmem⟩
  have hreaches := (hchain.imp fun _ _ => Relation.TransGen.single).pairwise
  rw [List.Nodup]
  refine hreaches.imp ?_
  rintro a _ hab rfl
  exact hacyclic a hab

/-- Different nodes have different names, which all lead to a node. -/
theorem Named.nodup_map_name (hp : p.Named) {ns : List Node} (hns : ns.Nodup)
    (hmem : ∀ n ∈ ns, n ∈ p.nodes) : (ns.map Node.name).Nodup := by
  refine hns.map_on fun a ha b hb hname => ?_
  have hb' := hp b (hmem b hb)
  rw [← hname, hp a (hmem a ha)] at hb'
  exact Option.some.inj hb'

theorem Named.length_le_nodeCount (hp : p.Named) {ns : List Node} (hns : ns.Nodup)
    (hmem : ∀ n ∈ ns, n ∈ p.nodes) : ns.length ≤ p.nodeCount := by
  have hnames : ns.map Node.name ⊆ p.byName.map Prod.fst := by
    intro name hname
    obtain ⟨n, hn, rfl⟩ := List.mem_map.mp hname
    obtain ⟨r, hr, -⟩ := Option.bind_eq_some_iff.mp (hp n (hmem n hn))
    exact List.mem_map.mpr ⟨(n.name, r), Assoc.mem_of_lookup hr, rfl⟩
  have hlength := ((hp.nodup_map_name hns hmem).subperm hnames).length_le
  rwa [List.length_map, List.length_map] at hlength

/-- Where there is no cycle, a path visits no node twice. -/
theorem Path.visits_once (hp : p.Named) (hacyclic : p.Acyclic) {e e' : Edge} {m m' : Machine}
    {steps : List Step} (h : Path g p e m steps e' m') :
    (steps.map Step.name).Nodup ∧ steps.length ≤ p.nodeCount := by
  obtain ⟨ns, hnames, hnodup, hmem⟩ := h.exists_nodup hacyclic
  rw [List.nodup_append] at hnodup
  have hmem' : ∀ n ∈ ns, n ∈ p.nodes := fun n hn => hmem n (List.mem_append_left _ hn)
  have hlength := congrArg List.length hnames
  rw [List.length_map, List.length_map] at hlength
  rw [← hnames, ← hlength]
  exact ⟨hp.nodup_map_name hnodup.1 hmem', hp.length_le_nodeCount hnodup.1 hmem'⟩

/-- Where there is no cycle, a path that goes on to a node has fewer steps than there are nodes. -/
theorem Path.length_lt (hacyclic : p.Acyclic) {e : Edge} {r : NodeRef} {n : Node} {m m' : Machine}
    {steps : List Step} (h : Path g p e m steps (some r) m') (hr : p.resolve? r = some n) :
    steps.length < p.nodes.length := by
  obtain ⟨ns, hnames, hnodup, hmem⟩ := h.exists_nodup hacyclic
  rw [Option.bind_some, hr, Option.toList_some] at hnodup hmem
  have hnodes := (hnodup.subperm hmem).length_le
  have hlength := congrArg List.length hnames
  rw [List.length_map, List.length_map] at hlength
  rw [List.length_append, List.length_singleton] at hnodes
  omega

/-- A measure that every link makes greater excludes cycles. -/
theorem acyclic_of_measure (f : Node → Nat) (h : ∀ a b, p.Links a b → f a < f b) : p.Acyclic := by
  have hreach : ∀ a b, Relation.TransGen p.Links a b → f a < f b := by
    intro a b hab
    induction hab with
    | single hab => exact h _ _ hab
    | tail _ hbc ih => exact ih.trans (h _ _ hbc)
  exact fun a ha => Nat.lt_irrefl _ (hreach a a ha)

end Pipeline

/-! ### Acyclic pipelines of a switch -/

namespace Program

theorem Reached.named (hg : g.Reached) (hp : p ∈ g.pipelines.objects) : p.Named := by
  obtain ⟨log, hlog⟩ := hg.traced
  obtain ⟨seat, hseat⟩ := hlog.follows p hp
  exact hseat.named

/-- A pipeline of a program that a switch can come to run, with at most 4096 nodes and no cycle:
no packet comes by a node twice, whatever becomes of it, so it visits at most all nodes and never
has too many steps. -/
theorem never_too_many_steps (hg : g.Reached) (hp : p ∈ g.pipelines.objects)
    (hsize : p.nodes.length ≤ 4096) (hacyclic : p.Acyclic) (m : Machine) :
    (∀ steps m', (p.run g).run m = .ok steps m' →
      (steps.map Step.name).Nodup ∧ steps.length ≤ p.nodeCount) ∧
    (∀ steps e m', Pipeline.Path g p p.init m steps e m' →
      (steps.map Step.name).Nodup ∧ steps.length ≤ p.nodeCount) ∧
    ∀ P m', (p.run g).run m ≠ .error (.tooManySteps P) m' := by
  have hnamed := hg.named hp
  refine ⟨fun steps m' h => ?_, fun steps e m' h => h.visits_once hnamed hacyclic, fun P m' h => ?_⟩
  · cases Pipeline.walk_eq_iff.mp h with
    | ended hpath => exact hpath.visits_once hnamed hacyclic
  · cases Pipeline.walk_eq_iff.mp h with
    | tooMany hpath hnode hlength =>
      have hlt := hpath.length_lt hacyclic hnode
      rw [hlength] at hlt
      exact absurd hsize (Nat.not_le.mpr hlt)
    | failed _ _ _ hfails => cases hfails.inner

/-! ### Three gates -/

/-- A document of three flex nodes, the first of which leads to both others. -/
def gatesDocument : Json.Value :=
  .object [("pipelines", .array [.object
    [("conditionals", .array [
        .object [("flex", .bool true), ("id", .ofNat 0), ("name", .string "a"),
          ("true_next", .string "b"), ("false_next", .string "c")],
        .object [("flex", .bool true), ("id", .ofNat 1), ("name", .string "b"),
          ("true_next", .string "c")],
        .object [("flex", .bool true), ("id", .ofNat 2), ("name", .string "c")]]),
      ("id", .ofNat 0), ("init_table", .string "a"), ("name", .string "p")]])]

/-- One of the nodes. -/
def gateNode (name : String) (id : Int) (trueNext falseNext : Edge) : Node :=
  .conditional
    { identity := ⟨name, id, none⟩, condition? := none, trueNext, falseNext, flex := true }

/-- Their pipeline. -/
def gates : Pipeline :=
  { identity := ⟨"p", 0, none⟩
    init := some ⟨0, 0⟩
    slots := [⟨0, some (gateNode "a" 0 (some ⟨1, 0⟩) (some ⟨2, 0⟩))⟩,
      ⟨0, some (gateNode "b" 1 (some ⟨2, 0⟩) none)⟩, ⟨0, some (gateNode "c" 2 none none)⟩]
    byName := [("c", ⟨2, 0⟩), ("b", ⟨1, 0⟩), ("a", ⟨0, 0⟩)] }

theorem acyclic_gates : gates.Acyclic := by
  refine Pipeline.acyclic_of_measure (·.identity.id.toNat) ?_
  rintro a b ⟨ha, r, hr, hb⟩
  have hnodes : gates.nodes = [gateNode "a" 0 (some ⟨1, 0⟩) (some ⟨2, 0⟩),
      gateNode "b" 1 (some ⟨2, 0⟩) none, gateNode "c" 2 none none] := rfl
  simp only [hnodes, List.mem_cons, List.not_mem_nil, or_false] at ha
  rcases ha with rfl | rfl | rfl <;>
    simp only [gateNode, Node.edges, List.mem_cons, List.not_mem_nil, or_false, Option.some.injEq,
      reduceCtorEq] at hr
  · rcases hr with rfl | rfl <;> cases hb <;> decide
  · subst hr
    cases hb
    decide

/-- A packet comes by each of them once. -/
theorem gates_visited_once :
    (ofPipeline gates 3).Reached ∧ gates.Acyclic ∧
      (gates.run (ofPipeline gates 3)).run ⟨{}, {}⟩ = .ok
        [.conditional "a" .onTrue, .conditional "b" .onTrue, .conditional "c" .onTrue] ⟨{}, {}⟩ ∧
      ∀ m, (∀ steps m', (gates.run (ofPipeline gates 3)).run m = .ok steps m' →
          (steps.map Step.name).Nodup ∧ steps.length ≤ 3) ∧
        ∀ P m', (gates.run (ofPipeline gates 3)).run m ≠ .error (.tooManySteps P) m' := by
  have hload : ofDocument {} gatesDocument = .ok (ofPipeline gates 3, {}) := rfl
  refine ⟨.load hload, acyclic_gates, rfl, fun m => ?_⟩
  obtain ⟨hok, -, hnever⟩ := never_too_many_steps (.load hload) (p := gates) List.mem_cons_self
    (by decide) acyclic_gates m
  exact ⟨hok, hnever⟩

end Program

end LiveSwitch
