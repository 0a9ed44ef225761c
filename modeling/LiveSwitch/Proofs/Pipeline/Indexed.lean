import LiveSwitch.Proofs.Pipeline.Slots
import Mathlib.Data.List.Nodup

/-!
# Names that lead to nodes

References resolve to the nodes of a pipeline, and names lead to references.  Where a name leads to
the reference of its node, and to no other, each operation of a pipeline is one equation for the
references, for the names and for the nodes.

## Main definitions

* `Pipeline.Indexed` — a name leads to the reference of its node.

## Main results

* `Pipeline.resolve?_insertNode`, `Indexed.resolve?_removeNode`, `Indexed.resolve?_modifyNode` —
  what references resolve to after each operation.
* `Indexed.node?_insertNode`, `node?_removeNode`, `node?_modifyNode` — the nodes of the names.
* `Indexed.mem_nodes_removeNode_iff`, `Indexed.mem_nodes_modifyNode` — the nodes that are there.
* `Indexed.insertNode`, `Indexed.removeNode`, `Indexed.modifyNode` — each operation keeps names
  leading to nodes.
-/

namespace LiveSwitch.Pipeline

variable {p p' : Pipeline} {n m : Node} {r : NodeRef} {name : String}

/-- The names of a pipeline lead to its nodes, and its free slots are empty. -/
structure Indexed (p : Pipeline) : Prop where
  slots : p.FreeSlots
  /-- A name leads to the reference that resolves to a node of that name. -/
  found : ∀ name r, p.find? name = some r ↔ ∃ n, p.resolve? r = some n ∧ n.name = name

/-! ### References and slots -/

/-- The reference of a slot's generation resolves to the node in the slot. -/
theorem nodeIn?_eq_resolve? (p : Pipeline) (i : Nat) :
    p.nodeIn? i = p.resolve? ⟨i, p.generationOf i⟩ := by
  rw [resolve?_eq, if_pos rfl]

theorem mem_nodes_iff_resolve? : n ∈ p.nodes ↔ ∃ r, p.resolve? r = some n := by
  refine ⟨fun hn => ?_, fun ⟨r, hr⟩ => mem_nodes_of_resolve? hr⟩
  obtain ⟨i, hi⟩ := mem_nodes_iff.mp hn
  exact ⟨_, (p.nodeIn?_eq_resolve? i).symm.trans hi⟩

theorem generationOf_of_resolve? (h : p.resolve? r = some n) :
    p.generationOf r.slot = r.generation := by
  rw [resolve?_eq] at h
  exact (Option.ite_none_right_eq_some.mp h).1

/-- A slot has one reference to a generation. -/
theorem generationOf_ne {r' : NodeRef} (hgen : r.generation = p.generationOf r.slot)
    (hslot : r'.slot = r.slot) (hne : r' ≠ r) : p.generationOf r'.slot ≠ r'.generation := by
  rw [hslot, ← hgen]
  intro heq
  exact hne (NodeRef.mk.injEq .. ▸ ⟨hslot, heq.symm⟩)

namespace Indexed

/-! ### Names and nodes -/

/-- A name is in use when a node has it. -/
theorem isSome_find?_iff (h : p.Indexed) :
    (p.find? name).isSome ↔ ∃ n ∈ p.nodes, n.name = name := by
  simp only [Option.isSome_iff_exists, h.found, mem_nodes_iff_resolve?]
  constructor
  · rintro ⟨r, n, hr, hname⟩
    exact ⟨n, ⟨r, hr⟩, hname⟩
  · rintro ⟨n, ⟨r, hr⟩, hname⟩
    exact ⟨r, n, hr, hname⟩

/-- The node of a name is the one that has it. -/
theorem node?_eq_some_iff (h : p.Indexed) :
    p.node? name = some n ↔ n ∈ p.nodes ∧ n.name = name := by
  rw [node?, Option.bind_eq_some_iff, mem_nodes_iff_resolve?]
  constructor
  · rintro ⟨r, hr, hn⟩
    obtain ⟨m, hm, hname⟩ := (h.found name r).mp hr
    rw [hn] at hm
    cases hm
    exact ⟨⟨r, hn⟩, hname⟩
  · rintro ⟨⟨r, hn⟩, hname⟩
    exact ⟨r, (h.found name r).mpr ⟨n, hn, hname⟩, hn⟩

theorem mem_nodes_iff_node? (h : p.Indexed) : n ∈ p.nodes ↔ p.node? n.name = some n := by
  rw [h.node?_eq_some_iff, and_iff_left rfl]

/-- Every node is found by its name. -/
theorem node?_of_mem (h : p.Indexed) (hn : n ∈ p.nodes) : p.node? n.name = some n :=
  h.mem_nodes_iff_node?.mp hn

/-- The name of a node leads to its slot. -/
theorem find?_of_nodeIn? (h : p.Indexed) {i : Nat} (hn : p.nodeIn? i = some n) :
    p.find? n.name = some ⟨i, p.generationOf i⟩ :=
  (h.found _ _).mpr ⟨n, (p.nodeIn?_eq_resolve? i).symm.trans hn, rfl⟩

/-- The node in a slot has a name just when the name leads to the slot. -/
theorem name_eq_iff_slot (h : p.Indexed) (hr : p.find? name = some r) {i : Nat}
    (hn : p.nodeIn? i = some n) : n.name = name ↔ i = r.slot := by
  constructor
  · rintro rfl
    rw [h.find?_of_nodeIn? hn] at hr
    exact congrArg NodeRef.slot (Option.some.inj hr)
  · rintro rfl
    obtain ⟨m, hm, hname⟩ := (h.found name r).mp hr
    rw [nodeIn?_of_resolve? hm] at hn
    cases hn
    exact hname

/-- No two nodes have one name. -/
theorem nodup_map_name (h : p.Indexed) : (p.nodes.map Node.name).Nodup := by
  refine nodup_map_name_of_slots fun i j n m hi hj hname => ?_
  have hsame := (h.find?_of_nodeIn? hi).symm.trans (hname ▸ h.find?_of_nodeIn? hj)
  exact congrArg NodeRef.slot (Option.some.inj hsame)

end Indexed

/-! ### Insertions -/

/-- The new reference resolves to the new node, and every other one resolves as before. -/
theorem resolve?_insertNode (hfree : p.FreeSlots) (hins : p.insertNode n = .ok (r, p'))
    (r' : NodeRef) : p'.resolve? r' = if r' = r then some n else p.resolve? r' := by
  obtain ⟨-, -, hgen, hnode, hgens, -⟩ := insertNode_ok hfree hins
  rw [resolve?_eq, resolve?_eq, hgens, hnode]
  by_cases heq : r' = r
  · rw [heq, if_pos hgen.symm, if_pos rfl, if_pos rfl]
  rw [if_neg heq]
  by_cases hslot : r'.slot = r.slot
  · -- a reference of another generation resolves to nothing, whatever the slot holds
    have hne := generationOf_ne hgen hslot heq
    rw [if_neg hne, if_neg hne]
  · rw [if_neg hslot]

namespace Indexed

/-- The slot of a new node was empty, so no name led to it. -/
theorem find?_ne_of_insertNode (h : p.Indexed) (hins : p.insertNode n = .ok (r, p'))
    (name : String) : p.find? name ≠ some r := by
  intro hr
  obtain ⟨-, hempty, -⟩ := insertNode_ok h.slots hins
  obtain ⟨m, hm, -⟩ := (h.found name r).mp hr
  rw [nodeIn?_of_resolve? hm] at hempty
  cases hempty

theorem insertNode (h : p.Indexed) (hins : p.insertNode n = .ok (r, p')) : p'.Indexed := by
  obtain ⟨hname, -, -, -, -, hfind, hslots, -⟩ := insertNode_ok h.slots hins
  refine ⟨hslots, fun name r' => ?_⟩
  rw [resolve?_insertNode h.slots hins, hfind]
  by_cases hr : r' = r
  · -- the new reference is that of the new name, and of no name before
    subst hr
    by_cases hn : name = n.name
    · simp [hn]
    · simp [hn, Ne.symm hn, h.find?_ne_of_insertNode hins name]
  · rw [if_neg hr, ← h.found]
    by_cases hn : name = n.name
    · simp [hn, hname, Ne.symm hr]
    · rw [if_neg hn]

/-- A node that is inserted is found under its name, and the others are where they were. -/
theorem node?_insertNode (h : p.Indexed) (hins : p.insertNode n = .ok (r, p')) (key : String) :
    p'.node? key = if key = n.name then some n else p.node? key := by
  obtain ⟨-, hfind⟩ := find?_insertNode hins
  have hresolve := resolve?_insertNode h.slots hins
  rw [node?, hfind]
  split
  · rw [Option.bind_some, hresolve, if_pos rfl]
  · rw [node?]
    refine Option.bind_congr fun r' hr' => ?_
    have hne : r' ≠ r := by
      rintro rfl
      exact h.find?_ne_of_insertNode hins key hr'
    rw [hresolve, if_neg hne]

/-- Without the node that was inserted, the nodes are those of before, in their order. -/
theorem nodes_of_insertNode (h : p.Indexed) (hins : p.insertNode n = .ok (r, p')) :
    p.nodes = p'.nodes.filter fun m => m.name != n.name := by
  obtain ⟨hfree, hempty, -, hnode, -⟩ := insertNode_ok h.slots hins
  rw [← List.filterMap_eq_filter]
  refine nodes_eq_of_nodeIn? fun i => ?_
  rw [hnode]
  split
  case isTrue hi => simp [hi, hempty, Option.guard]
  case isFalse =>
    cases hm : p.nodeIn? i with
    | none => rfl
    | some m =>
      have hne : m.name ≠ n.name := by
        intro heq
        rw [← heq, h.find?_of_nodeIn? hm] at hfree
        cases hfree
      rw [Option.bind_some, Option.guard_apply, if_pos (bne_iff_ne.mpr hne)]
/-! ### Deletions -/

/-- The reference of a deleted node resolves to nothing, and every other one resolves as
before. -/
theorem resolve?_removeNode (h : p.Indexed) (hr : p.find? name = some r) (r' : NodeRef) :
    (p.removeNode name).resolve? r' = if r' = r then none else p.resolve? r' := by
  obtain ⟨n, hn, -⟩ := (h.found name r).mp hr
  obtain ⟨hnode, hgen, -⟩ := removeNode_ok h.slots hr (nodeIn?_of_resolve? hn)
  rw [resolve?_eq, resolve?_eq, hgen, hnode]
  by_cases hslot : r'.slot = r.slot
  · -- the slot is empty now, and before it only resolved in the generation of the reference
    rw [if_pos hslot, if_pos hslot, ite_self]
    split
    · rfl
    case isFalse heq =>
      rw [if_neg (generationOf_ne (generationOf_of_resolve? hn).symm hslot heq)]
  · have hne : r' ≠ r := fun heq => hslot (congrArg NodeRef.slot heq)
    rw [if_neg hslot, if_neg hslot, if_neg hne]

/-- Two names do not lead to one reference. -/
theorem eq_of_find? (h : p.Indexed) {key : String} (hr : p.find? name = some r)
    (hkey : p.find? key = some r) : key = name := by
  obtain ⟨n, hn, hname⟩ := (h.found name r).mp hr
  obtain ⟨m, hm, hkey'⟩ := (h.found key r).mp hkey
  rw [hn] at hm
  cases hm
  exact hkey'.symm.trans hname

theorem removeNode (h : p.Indexed) (name : String) : (p.removeNode name).Indexed := by
  cases hr : p.find? name with
  | none =>
    rw [removeNode_of_none hr]
    exact h
  | some r =>
    obtain ⟨n, hn, -⟩ := (h.found name r).mp hr
    obtain ⟨-, -, hfind, hslots, -⟩ := removeNode_ok h.slots hr (nodeIn?_of_resolve? hn)
    refine ⟨hslots, fun key r' => ?_⟩
    rw [h.resolve?_removeNode hr, hfind]
    by_cases hr' : r' = r
    · by_cases hkey : key = name
      · simp [hr', hkey]
      · simp [hr', hkey, mt (h.eq_of_find? hr) hkey]
    · rw [if_neg hr', ← h.found]
      by_cases hkey : key = name
      · simp [hkey, hr, Ne.symm hr']
      · rw [if_neg hkey]

/-- A node that is deleted is gone, and the others are where they were. -/
theorem node?_removeNode (h : p.Indexed) (name key : String) :
    (p.removeNode name).node? key = if key = name then none else p.node? key := by
  rw [node?, find?_removeNode]
  split
  · rfl
  case isFalse hkey =>
    cases hr : p.find? name with
    | none => rw [removeNode_of_none hr, node?]
    | some r =>
      rw [node?]
      refine Option.bind_congr fun r' hr' => ?_
      have hne : r' ≠ r := by
        rintro rfl
        exact hkey (h.eq_of_find? hr hr')
      rw [h.resolve?_removeNode hr, if_neg hne]

theorem mem_nodes_removeNode_iff (h : p.Indexed) (name : String) :
    m ∈ (p.removeNode name).nodes ↔ m ∈ p.nodes ∧ m.name ≠ name := by
  rw [(h.removeNode name).mem_nodes_iff_node?, h.mem_nodes_iff_node?, h.node?_removeNode]
  split
  case isTrue heq => simp [heq]
  case isFalse hne => simp [hne]

/-- The other nodes stay in their order when one is deleted. -/
theorem nodes_removeNode (h : p.Indexed) (hr : p.find? name = some r) :
    (p.removeNode name).nodes = p.nodes.filter fun n => n.name != name := by
  rw [← List.filterMap_eq_filter]
  obtain ⟨m, hm, hname⟩ := (h.found name r).mp hr
  refine nodes_eq_of_nodeIn? fun i => ?_
  rw [(removeNode_ok h.slots hr (nodeIn?_of_resolve? hm)).1]
  cases hn : p.nodeIn? i with
  | none => simp
  | some n =>
    have hslot := h.name_eq_iff_slot hr hn
    rw [Option.bind_some, Option.guard_apply, if_congr hslot.symm rfl rfl]
    by_cases hnn : n.name = name <;> simp [hnn]

/-! ### Changes of nodes -/

/-- References resolve to the nodes that they resolved to, the one of the name as it is after the
change. -/
theorem resolve?_modifyNode (h : p.Indexed) (name : String) (f : Node → Node) (r' : NodeRef) :
    (p.modifyNode name f).resolve? r' =
      (p.resolve? r').map fun n => if n.name = name then f n else n := by
  cases hr : p.find? name with
  | none =>
    rw [modifyNode_of_none f hr]
    cases hn : p.resolve? r' with
    | none => rfl
    | some n =>
      have hne : n.name ≠ name := fun heq => by
        rw [(h.found name r').mpr ⟨n, hn, heq⟩] at hr
        cases hr
      rw [Option.map_some, if_neg hne]
  | some r =>
    obtain ⟨m, hm, -⟩ := (h.found name r).mp hr
    obtain ⟨hnode, hgens⟩ := modifyNode_ok f hr (generationOf_of_resolve? hm)
    have hmodify : (p.modifyNode name f).resolve? r' =
        if r'.slot = r.slot then (p.resolve? r').map f else p.resolve? r' := by
      rw [resolve?_eq, resolve?_eq, hgens, hnode]
      split <;> simp
    rw [hmodify]
    cases hn : p.resolve? r' with
    | none => simp
    | some n =>
      -- the slot is changed, the node is told by its name
      have hslot := h.name_eq_iff_slot hr (nodeIn?_of_resolve? hn)
      rw [if_congr hslot.symm rfl rfl, Option.map_some, Option.map_some]
      exact (apply_ite some _ _ _).symm

/-- A change of the node called `name` changes the node of that name and no other. -/
theorem nodeIn?_modifyNode (h : p.Indexed) (name : String) (f : Node → Node) (i : Nat) :
    (p.modifyNode name f).nodeIn? i =
      (p.nodeIn? i).map fun n => if n.name = name then f n else n := by
  rw [nodeIn?_eq_resolve?, h.resolve?_modifyNode, generationOf_modifyNode, ← nodeIn?_eq_resolve?]

/-- A node that is changed is found changed, and the others are as they were. -/
theorem node?_modifyNode (h : p.Indexed) (name : String) (f : Node → Node) (key : String) :
    (p.modifyNode name f).node? key =
      if key = name then (p.node? key).map f else p.node? key := by
  rw [node?, find?_modifyNode, node?]
  cases hr : p.find? key with
  | none => simp
  | some r =>
    obtain ⟨n, hn, hname⟩ := (h.found key r).mp hr
    rw [Option.bind_some, Option.bind_some, h.resolve?_modifyNode, hn, Option.map_some, hname]
    exact apply_ite some _ _ _

/-- The nodes stay in their order when one of them changes. -/
theorem nodes_modifyNode (h : p.Indexed) (name : String) (f : Node → Node) :
    (p.modifyNode name f).nodes = p.nodes.map fun n => if n.name = name then f n else n := by
  rw [← List.filterMap_eq_map]
  refine nodes_eq_of_nodeIn? fun i => ?_
  rw [h.nodeIn?_modifyNode, Option.map_eq_bind]

theorem mem_nodes_modifyNode (h : p.Indexed) {f : Node → Node}
    (hm : m ∈ (p.modifyNode name f).nodes) :
    ∃ n ∈ p.nodes, m = if n.name = name then f n else n := by
  obtain ⟨i, hi⟩ := mem_nodes_iff.mp hm
  rw [h.nodeIn?_modifyNode] at hi
  obtain ⟨n, hn, rfl⟩ := Option.map_eq_some_iff.mp hi
  exact ⟨n, mem_nodes_iff.mpr ⟨i, hn⟩, rfl⟩

theorem freeSlots_modifyNode (h : p.Indexed) (name : String) (f : Node → Node) :
    (p.modifyNode name f).FreeSlots where
  nodup := by
    rw [free_modifyNode]
    exact h.slots.nodup
  lt i hi := by
    rw [free_modifyNode] at hi
    rw [length_modifyNode]
    exact h.slots.lt i hi
  empty i hi := by
    rw [free_modifyNode] at hi
    rw [h.nodeIn?_modifyNode, h.slots.empty i hi, Option.map_none]

/-- A change that keeps the name of its node keeps names leading to nodes. -/
theorem modifyNode (h : p.Indexed) {f : Node → Node}
    (hf : ∀ n, n.name = name → (f n).name = name) : (p.modifyNode name f).Indexed := by
  have hname : ∀ n : Node, (if n.name = name then f n else n).name = n.name := by
    intro n
    split
    case isTrue heq => exact (hf n heq).trans heq.symm
    case isFalse => rfl
  refine ⟨h.freeSlots_modifyNode name f, fun key r => ?_⟩
  rw [h.resolve?_modifyNode, find?_modifyNode, h.found]
  simp [hname]

end Indexed

end LiveSwitch.Pipeline
