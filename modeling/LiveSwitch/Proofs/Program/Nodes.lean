import LiveSwitch.Proofs.Document.Sound
import LiveSwitch.Proofs.Switch.Generations

/-!
# What holds of every node

Nodes come from the records of documents and from the definitions of donors, and are then
changed edge by edge and entry by entry.  What holds of new nodes and is kept by these changes
holds of every node of every program that is reached.

## Main definitions

* `Node.Invariant` — a property holds of new nodes and is kept by all changes of nodes.
* `Table.Keyed` — a table has at most one edge for each action.

## Main results

* `Program.Reached.allNodes`, `Edit.allNodes_foldlM` — an invariant holds of every node of a
  program that is reached, also in the middle of a plan.
* `Table.keyed` — being keyed is an invariant.
-/

namespace LiveSwitch

/-- A property that new nodes have and that no change of a node breaks. -/
structure Node.Invariant (P : Node → Prop) : Prop where
  conditional : ∀ c, P (.conditional c)
  record : ∀ {r t}, Table.ofRecord r = .ok t → P (.table t)
  instantiate : ∀ (t : Table) name id ids, P (.table (t.instantiate name id ids))
  setEdge : ∀ {n : Node} (q : Port) (e : Edge), P n → P (n.setEdge q e)
  entry : ∀ {t t' : Table}, P (.table t) → t.EntryChange t' → P (.table t')

/-! ### Nodes of a pipeline -/

namespace Pipeline

variable {p p' : Pipeline} {P : Node → Prop}

/-- A property holds of every node in a slot of a pipeline. -/
def AllNodes (P : Node → Prop) (p : Pipeline) : Prop := ∀ n ∈ p.nodes, P n

theorem allNodes_iff : p.AllNodes P ↔ ∀ s ∈ p.slots, ∀ n ∈ s.node?, P n := by
  simp only [AllNodes, nodes, List.mem_filterMap]
  constructor
  · intro h s hs n hn
    exact h n ⟨s, hs, hn⟩
  · rintro h n ⟨s, hs, hn⟩
    exact h s hs n hn

theorem AllNodes.of_slots_modify (h : p.AllNodes P) {i : Nat} {f : Slot → Slot}
    (hslots : p'.slots = p.slots.modify i f)
    (hf : ∀ s ∈ p.slots, ∀ n ∈ (f s).node?, P n) : p'.AllNodes P := by
  rw [allNodes_iff] at h ⊢
  intro s hs n hn
  obtain ⟨j, hj⟩ := List.mem_iff_getElem?.mp hs
  rw [hslots, getElem?_modify_slot] at hj
  split at hj
  case isTrue =>
    obtain ⟨s₀, hs₀, rfl⟩ := Option.map_eq_some_iff.mp hj
    exact hf s₀ (List.mem_of_getElem? hs₀) n hn
  case isFalse => exact h s (List.mem_of_getElem? hj) n hn

theorem AllNodes.insertNode (h : p.AllNodes P) {n : Node} {r : NodeRef} (hn : P n)
    (hins : p.insertNode n = .ok (r, p')) : p'.AllNodes P := by
  rw [Pipeline.insertNode] at hins
  split at hins
  case isTrue => cases hins
  case isFalse =>
    split at hins
    case h_1 =>
      cases hins
      rw [allNodes_iff] at h ⊢
      intro s hs m hm
      rcases List.mem_append.mp hs with hs | hs
      · exact h s hs m hm
      · cases List.mem_singleton.mp hs
        cases hm
        exact hn
    case h_2 =>
      cases hins
      refine h.of_slots_modify rfl fun s _ m hm => ?_
      cases hm
      exact hn

theorem AllNodes.modifyNode (h : p.AllNodes P) (name : String) {f : Node → Node}
    (hf : ∀ n ∈ p.nodes, P (f n)) : (p.modifyNode name f).AllNodes P := by
  rw [Pipeline.modifyNode]
  split
  case h_1 => exact h
  case h_2 =>
    refine h.of_slots_modify rfl fun s hs m hm => ?_
    split at hm
    · obtain ⟨n, hn, rfl⟩ := Option.map_eq_some_iff.mp hm
      exact hf n (List.mem_filterMap.mpr ⟨s, hs, hn⟩)
    · exact allNodes_iff.mp h s hs m hm

theorem AllNodes.removeNode (h : p.AllNodes P) (name : String) :
    (p.removeNode name).AllNodes P := by
  rw [Pipeline.removeNode]
  split
  case h_1 => exact h
  case h_2 =>
    refine h.of_slots_modify rfl fun s _ n hn => ?_
    cases hn

end Pipeline

/-! ### Nodes of a program -/

namespace Program

variable {g g' : Program} {P : Node → Prop}

/-- A property holds of every node of a program. -/
def AllNodes (P : Node → Prop) (g : Program) : Prop := ∀ p ∈ g.pipelines.objects, p.AllNodes P

theorem AllNodes.setPipeline (h : g.AllNodes P) {pipeline : String} {p : Pipeline}
    (hp : p.AllNodes P) : (g.setPipeline pipeline p).AllNodes P := by
  intro q hq
  obtain ⟨q₀, hq₀, rfl⟩ := ObjectMap.mem_modify.mp hq
  split
  · exact hp
  · exact h q₀ hq₀

theorem AllNodes.get (h : g.AllNodes P) {pipeline : String} {p : Pipeline}
    (hp : g.pipeline? pipeline = some p) : p.AllNodes P :=
  h p (ObjectMap.mem_of_get? hp).1

end Program

namespace Loader

variable {P : Node → Prop} {g : Program} {l l' : Loader} {p p' : Pipeline}

theorem allNodes_linkTable (hP : Node.Invariant P) {r : TableRecord} (hp : p.AllNodes P)
    (h : linkTable g p r = .ok p') : p'.AllNodes P := by
  obtain ⟨baseNext, t, t', -, ht, hnext, rfl⟩ := linkTable_eq_ok.mp h
  have hbase : P (.table { t with baseNext }) :=
    hP.setEdge .base baseNext (hp _ (Pipeline.mem_nodes_of_table? ht))
  have ht' : P (.table t') := by
    refine foldlM_induction (P := fun t : Table => P (.table t)) ?_ hbase hnext
    rintro next - t₁ t₂ ht₁ hstep
    obtain ⟨e, q, -, -, -, heq⟩ := linkNext_ok hstep
    rw [heq]
    exact hP.setEdge q e ht₁
  refine hp.modifyNode _ fun n hn => ?_
  cases n with
  | conditional c => exact hP.conditional c
  | table _ => exact ht'

theorem allNodes_addPipeline (hP : Node.Invariant P) {r : PipelineRecord}
    (h : l.addPipeline r = .ok l') (hl : l.program.AllNodes P) : l'.program.AllNodes P := by
  obtain ⟨l₁, p₁, l₂, p₂, p₃, p₄, init, pipelines, h₁, h₂, h₃, h₄, -, hins, rfl⟩ :=
    addPipeline_eq_ok.mp h
  have hp₂ : p₂.AllNodes P := by
    refine addNodes_induction (P := fun _ q => q.AllNodes P) h₁ h₂ ?_ ?_ nofun
    · intro t l p l' p' hp hstep
      obtain ⟨t, _, -, -, ht, hins, -⟩ := addTable_eq_ok.mp hstep
      exact hp.insertNode (hP.record ht) hins
    · intro c l p l' p' hp hstep
      obtain ⟨c, _, -, -, hins, -⟩ := addConditional_eq_ok.mp hstep
      exact hp.insertNode (hP.conditional c) hins
  have hp₃ : p₃.AllNodes P :=
    foldlM_induction (fun _ _ _ _ hp hstep => allNodes_linkTable hP hp hstep) hp₂ h₃
  have hp₄ : p₄.AllNodes P := by
    refine foldlM_induction (P := Pipeline.AllNodes P) ?_ hp₃ h₄
    rintro c - p p' hp hstep
    obtain ⟨_, _, -, -, rfl⟩ := linkConditional_eq_ok.mp hstep
    refine hp.modifyNode _ fun n hn => ?_
    cases n with
    | conditional c => exact hP.conditional _
    | table t => exact hp _ hn
  obtain ⟨-, hprogram, -⟩ := addNodes_keep h₁ h₂
  obtain ⟨-, -, rfl⟩ := ObjectMap.insert_eq_ok.mp hins
  intro p hp
  rcases ObjectMap.mem_place.mp hp with rfl | hp
  · exact hp₄
  · rw [hprogram] at hp
    exact hl p hp

theorem Adds.allNodes (hP : Node.Invariant P) (h : l.Adds l') (hl : l.program.AllNodes P) :
    l'.program.AllNodes P := by
  cases h with
  | array _ h =>
    obtain ⟨_, -, -, -, rfl⟩ := addArray_eq_ok.mp h
    exact hl
  | calculation _ h =>
    obtain ⟨_, _, -, -, rfl⟩ := addCalculation_eq_ok.mp h
    exact hl
  | action _ h =>
    obtain ⟨_, _, -, -, rfl⟩ := addAction_eq_ok.mp h
    exact hl
  | pipeline _ h => exact allNodes_addPipeline hP h hl

end Loader

namespace Edit

open Program

variable {P : Node → Prop} {g g' donor : Program} {s s' : Store}

/-- An edit keeps a property that its new node has and that no change of an edge breaks. -/
theorem allNodes_run_of {e : Edit} (hnew : ∀ n, e.Brings donor n → P n)
    (hset : ∀ {n : Node} (q : Port) (e : Edge), P n → P (n.setEdge q e)) (h : g.AllNodes P)
    (hrun : e.run donor (g, s) = .ok (g', s')) : g'.AllNodes P := by
  by_cases hnodes : e.onNodes = false
  · rw [(frame_of_not_onNodes hnodes hrun).1]
    exact h
  obtain ⟨hchange, -⟩ := nodeChange_run (Bool.not_eq_false _ ▸ hnodes) hrun
  cases hchange with
  | insert targets hp hadopt hins hids hedges hbrings =>
    obtain ⟨actions, calculations, rfl⟩ := adoptActions_ok hadopt
    exact AllNodes.setPipeline (g := { g with actions, calculations }) h
      ((h.get hp).insertNode (hnew _ hbrings) hins)
  | wire hp => exact h.setPipeline ((h.get hp).modifyNode _ fun n hn => hset _ _ (h.get hp n hn))
  | delete hp => exact h.setPipeline ((h.get hp).removeNode _)

/-- An invariant of nodes holds of what an edit inserts. -/
theorem Brings.invariant {e : Edit} {n : Node} (h : e.Brings donor n) (hP : Node.Invariant P) :
    P n := by
  cases e with
  | insertConditional =>
    obtain ⟨d, id, -, rfl⟩ := h
    exact hP.conditional _
  | insertFlex =>
    obtain ⟨id, trueNext, falseNext, rfl⟩ := h
    exact hP.conditional _
  | insertTable =>
    obtain ⟨d, id, ids, -, rfl⟩ := h
    exact hP.instantiate d _ id ids
  | _ => cases h

theorem allNodes_run (hP : Node.Invariant P) {e : Edit} (h : g.AllNodes P)
    (hrun : e.run donor (g, s) = .ok (g', s')) : g'.AllNodes P :=
  allNodes_run_of (fun _ hn => hn.invariant hP) hP.setEdge h hrun

/-- An invariant of nodes is kept by the edits of a plan. -/
theorem allNodes_foldlM (hP : Node.Invariant P) {l : List Edit} (h : g.AllNodes P)
    (hrun : l.foldlM (Edit.run donor) (g, s) = .ok (g', s')) : g'.AllNodes P := by
  refine foldlM_induction (P := fun x => x.1.AllNodes P) ?_ h hrun
  rintro e - ⟨g, s⟩ ⟨g', s'⟩ hg hstep
  exact allNodes_run hP hg hstep

end Edit

/-- An invariant of nodes holds of every node of a program that is reached. -/
theorem Program.Reached.allNodes {P : Node → Prop} {g : Program} (hP : Node.Invariant P)
    (h : g.Reached) : g.AllNodes P := by
  induction h with
  | start => exact nofun
  | load h =>
    obtain ⟨root, layout, l, -, hadds, rfl, -⟩ := adds_ofDocument h
    have hl : l.program.AllNodes P := by
      clear h
      induction hadds with
      | refl => exact nofun
      | tail _ hstep ih => exact hstep.allNodes hP ih
    exact hl
  | plan _ _ _ hrun ih =>
    have hg' := Edit.allNodes_foldlM hP ih hrun
    exact hg'
  | entry _ hp ht hchange ih =>
    refine ih.setPipeline ((ih.get hp).modifyNode _ fun n hn => ?_)
    cases n with
    | conditional c => exact hP.conditional c
    | table _ => exact hP.entry (ih.get hp _ (Pipeline.mem_nodes_of_table? ht)) hchange

/-! ### Edges of actions -/

namespace Table

/-- A table has one edge at most for each action, in the order of the action ids. -/
def Keyed (t : Table) : Prop := (t.nextByAction.map Prod.fst).Pairwise (· < ·)

variable {t : Table}

theorem keyed_nullEdges (ids : List Int) :
    ((ids.foldl (fun m id => Assoc.insert id (none : Edge) m) []).map Prod.fst).Pairwise
      (· < ·) := by
  suffices h : ∀ m : List (Int × Edge), (m.map Prod.fst).Pairwise (· < ·) →
      ((ids.foldl (fun m id => Assoc.insert id none m) m).map Prod.fst).Pairwise (· < ·) from
    h [] List.Pairwise.nil
  induction ids with
  | nil => exact fun _ hm => hm
  | cons id ids ih => exact fun m hm => ih _ (Assoc.sorted_insert hm id none)

/-- Every edge of a keyed table is an edge of the node. -/
theorem Keyed.edgeAt? (h : t.Keyed) {e : Edge} (he : e ∈ t.edges) :
    ∃ q, (Node.table t).edgeAt? q = some e := by
  simp only [edges, List.mem_append, List.mem_map, Option.mem_toList, List.mem_singleton] at he
  rcases he with ((⟨x, hx, rfl⟩ | hhit) | hmiss) | rfl
  · exact ⟨.action x.1, Assoc.lookup_of_mem h hx⟩
  · exact ⟨.hit, hhit⟩
  · exact ⟨.miss, hmiss⟩
  · exact ⟨.base, rfl⟩

/-- Tables are keyed. -/
theorem invariant_keyed : Node.Invariant fun n => ∀ t ∈ n.table?, t.Keyed where
  conditional _ := nofun
  record h t heq := by
    cases heq
    obtain ⟨_, _, -, -, rfl⟩ := ofRecord_eq_ok.mp h
    exact List.Pairwise.nil
  instantiate t name id ids t' heq := by
    cases heq
    exact keyed_nullEdges ids
  setEdge {n} q e h t heq := by
    cases n with
    | conditional c => cases q <;> cases heq
    | table u =>
      have hu : u.Keyed := h u rfl
      cases q with
      | action id =>
        cases heq
        exact Assoc.sorted_insert hu id e
      | branch | hit | miss | base =>
        cases heq
        exact hu
  entry {u u'} h hchange t heq := by
    cases heq
    have hu : u.Keyed := h u rfl
    cases hchange with
    | add key e h =>
      simp only [addEntry, bind_eq_ok, pure_eq_ok] at h
      obtain ⟨_, -, _, -, rfl⟩ := h
      exact hu
    | delete key h =>
      simp only [deleteEntry, bind_eq_ok] at h
      obtain ⟨_, -, h⟩ := h
      split at h
      · cases h
        exact hu
      · cases h
    | setDefault e h =>
      simp only [Table.setDefault, bind_eq_ok, pure_eq_ok] at h
      obtain ⟨_, -, rfl⟩ := h
      exact hu

end Table

end LiveSwitch
