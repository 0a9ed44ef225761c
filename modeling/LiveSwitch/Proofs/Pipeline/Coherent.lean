import LiveSwitch.Proofs.Pipeline.Indexed

/-!
# Names, slots and free slots that agree

The nodes of a pipeline lie in its slots, the names lead to the slots, and the slots without a
node are listed for the nodes to come.  Every insertion, deletion and change of a node keeps the
three in agreement, also when a name or a slot is used again, and whatever edges the nodes have.

## Main definitions

* `Pipeline.Coherent` — the names, the slots and the free slots agree.

## Main results

* `Coherent.indexed`, `Coherent.of_indexed` — what the agreement adds to names that lead to nodes.
* `Coherent.insertNode`, `Coherent.removeNode`, `Coherent.modifyNode` — each change keeps the
  agreement.
* `Coherent.nodeCount_eq`, `Coherent.perm_names` — the names are those of the nodes.
-/

namespace LiveSwitch.Pipeline

variable {p p' : Pipeline} {n : Node} {r : NodeRef} {name : String}

/-- The names, the slots and the free slots of a pipeline agree. -/
structure Coherent (p : Pipeline) : Prop where
  /-- A name leads to the slot that holds a node of that name, in the slot's generation. -/
  found : ∀ name r, p.find? name = some r ↔ ∃ s n, p.slots[r.slot]? = some s ∧
    s.generation = r.generation ∧ s.node? = some n ∧ n.name = name
  /-- The free slots are the empty ones. -/
  free : ∀ i, i ∈ p.free ↔ ∃ s, p.slots[i]? = some s ∧ s.node? = none
  nodup_free : p.free.Nodup
  nodup_names : (p.byName.map Prod.fst).Nodup

/-! ### Slots seen through the look-ups -/

theorem exists_resolve?_iff : (∃ n, p.resolve? r = some n ∧ n.name = name) ↔
    ∃ s n, p.slots[r.slot]? = some s ∧ s.generation = r.generation ∧ s.node? = some n ∧
      n.name = name := by
  unfold resolve?
  cases p.slots[r.slot]? with
  | none => simp
  | some s => by_cases hgen : s.generation = r.generation <;> simp [hgen]

theorem vacant_iff {i : Nat} : (i < p.slots.length ∧ p.nodeIn? i = none) ↔
    ∃ s, p.slots[i]? = some s ∧ s.node? = none := by
  unfold nodeIn?
  by_cases hi : i < p.slots.length
  · simp [hi]
  · simp [hi]

namespace Coherent

theorem empty (identity : Identity) (init : Edge) (extra : Json.Object) :
    ({ identity, init, extra } : Pipeline).Coherent where
  found name r := by simp [find?]
  free i := by simp
  nodup_free := List.nodup_nil
  nodup_names := List.nodup_nil

theorem mem_free_iff (h : p.Coherent) {i : Nat} :
    i ∈ p.free ↔ i < p.slots.length ∧ p.nodeIn? i = none :=
  (h.free i).trans vacant_iff.symm

theorem freeSlots (h : p.Coherent) : p.FreeSlots where
  nodup := h.nodup_free
  lt _ hi := (h.mem_free_iff.mp hi).1
  empty _ hi := (h.mem_free_iff.mp hi).2

/-- The names lead to the nodes. -/
theorem indexed (h : p.Coherent) : p.Indexed where
  slots := h.freeSlots
  found name r := (h.found name r).trans exists_resolve?_iff.symm

/-- Where names lead to nodes, it remains that every empty slot is free and every name is entered
once. -/
theorem of_indexed (h : p.Indexed)
    (hfree : ∀ i, i < p.slots.length → p.nodeIn? i = none → i ∈ p.free)
    (hnames : (p.byName.map Prod.fst).Nodup) : p.Coherent where
  found name r := (h.found name r).trans exists_resolve?_iff
  free i := by
    rw [← vacant_iff]
    exact ⟨fun hi => ⟨h.slots.lt i hi, h.slots.empty i hi⟩, fun ⟨hi, hnone⟩ => hfree i hi hnone⟩
  nodup_free := h.slots.nodup
  nodup_names := hnames

/-- The names that lead to slots are those of the nodes. -/
theorem perm_names (h : p.Coherent) : (p.byName.map Prod.fst).Perm (p.nodes.map Node.name) := by
  refine (List.perm_ext_iff_of_nodup h.nodup_names h.indexed.nodup_map_name).mpr fun name => ?_
  rw [Assoc.mem_keys_iff, List.mem_map]
  exact h.indexed.isSome_find?_iff

theorem nodeCount_eq (h : p.Coherent) : p.nodeCount = p.nodes.length := by
  have hlength := h.perm_names.length_eq
  rwa [List.length_map, List.length_map] at hlength

end Coherent

/-! ### Changes of the slots -/

/-- A node goes to the slot freed last, or to a new slot when none is free. -/
theorem slot_insertNode (hins : p.insertNode n = .ok (r, p')) :
    p'.byName = (n.name, r) :: p.byName ∧
      ((p.free = [] ∧ r.slot = p.slots.length ∧ p'.slots.length = p.slots.length + 1) ∨
        (p.free = r.slot :: p'.free ∧ p'.slots.length = p.slots.length)) := by
  unfold insertNode at hins
  split at hins
  · cases hins
  split at hins
  case h_1 hnil =>
    cases hins
    exact ⟨rfl, Or.inl ⟨hnil, rfl, by simp⟩⟩
  case h_2 hcons =>
    cases hins
    exact ⟨rfl, Or.inr ⟨hcons, List.length_modify _ _ _⟩⟩

namespace Coherent

theorem insertNode (h : p.Coherent) (hins : p.insertNode n = .ok (r, p')) : p'.Coherent := by
  obtain ⟨hname, -, -, hnode, -⟩ := insertNode_ok h.freeSlots hins
  obtain ⟨hkeys, hslot⟩ := slot_insertNode hins
  refine of_indexed (h.indexed.insertNode hins) (fun i hi hnone => ?_) ?_
  · -- the slot of the new node is not empty, and the other empty slots were free
    rw [hnode] at hnone
    obtain ⟨hne, hnone⟩ := (ite_eq_iff.mp hnone).resolve_left fun hself => by cases hself.2
    rcases hslot with ⟨hnil, hlast, hlength⟩ | ⟨hcons, hlength⟩
    · have hmem := h.mem_free_iff.mpr ⟨by omega, hnone⟩
      rw [hnil] at hmem
      cases hmem
    · have hmem := h.mem_free_iff.mpr ⟨hlength ▸ hi, hnone⟩
      rw [hcons] at hmem
      exact (List.mem_cons.mp hmem).resolve_left hne
  · have hnew : n.name ∉ p.byName.map Prod.fst := by
      rw [Assoc.mem_keys_iff]
      have hlookup : p.byName.lookup n.name = none := hname
      rw [hlookup]
      exact Bool.false_ne_true
    rw [hkeys]
    exact List.nodup_cons.mpr ⟨hnew, h.nodup_names⟩

theorem removeNode (h : p.Coherent) (name : String) : (p.removeNode name).Coherent := by
  cases hr : p.find? name with
  | none =>
    rw [removeNode_of_none hr]
    exact h
  | some r =>
    obtain ⟨n, hn, -⟩ := (h.indexed.found name r).mp hr
    obtain ⟨hnode, -⟩ := removeNode_ok h.freeSlots hr (nodeIn?_of_resolve? hn)
    have heq := removeNode_of_find? hr
    have hfree : (p.removeNode name).free = r.slot :: p.free := by rw [heq]
    have hlength : (p.removeNode name).slots.length = p.slots.length := by
      rw [heq]
      exact List.length_modify _ _ _
    refine of_indexed (h.indexed.removeNode name) (fun i hi hnone => ?_) ?_
    · rw [hnode] at hnone
      rw [hfree, List.mem_cons]
      rcases ite_eq_iff.mp hnone with ⟨hslot, -⟩ | ⟨-, hnone⟩
      · exact Or.inl hslot
      · exact Or.inr (h.mem_free_iff.mpr ⟨hlength ▸ hi, hnone⟩)
    · rw [heq]
      exact Assoc.nodup_erase h.nodup_names name

/-- A change of a node that keeps its name keeps the agreement. -/
theorem modifyNode (h : p.Coherent) {f : Node → Node}
    (hf : ∀ n, n.name = name → (f n).name = name) : (p.modifyNode name f).Coherent := by
  refine of_indexed (h.indexed.modifyNode hf) (fun i hi hnone => ?_) ?_
  · rw [length_modifyNode] at hi
    rw [h.indexed.nodeIn?_modifyNode, Option.map_eq_none_iff] at hnone
    rw [free_modifyNode]
    exact h.mem_free_iff.mpr ⟨hi, hnone⟩
  · rw [byName_modifyNode]
    exact h.nodup_names

end Coherent

end LiveSwitch.Pipeline
