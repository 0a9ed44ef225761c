import LiveSwitch.Pipeline.Basic
import Mathlib.Data.List.Basic

/-!
# Slots of a pipeline

A pipeline is seen through three look-ups: the node in a slot, the generation of a slot and
the reference of a name.  Each operation of a pipeline is one equation for each of them.

## Main definitions

* `Pipeline.nodeIn?`, `Pipeline.generationOf` — what a slot holds and how often it was freed.
* `Pipeline.FreeSlots` — the free slots are empty, and each is listed once.

## Main results

* `Pipeline.insertNode_ok`, `removeNode_ok`, `modifyNode_ok` — the operations through the
  look-ups.
-/

namespace LiveSwitch.Pipeline

variable {p p' : Pipeline}

/-- The node in a slot. -/
def nodeIn? (p : Pipeline) (i : Nat) : Option Node := p.slots[i]?.bind Slot.node?

/-- The generation of a slot; a slot that is not there yet is in its first. -/
def generationOf (p : Pipeline) (i : Nat) : UInt32 := (p.slots[i]?.map Slot.generation).getD 0

/-- The free slots hold no nodes, and each is listed once. -/
structure FreeSlots (p : Pipeline) : Prop where
  nodup : p.free.Nodup
  lt : ∀ i ∈ p.free, i < p.slots.length
  empty : ∀ i ∈ p.free, p.nodeIn? i = none

/-- A reference resolves to the node in its slot, if the slot is in its generation. -/
theorem resolve?_eq (p : Pipeline) (r : NodeRef) :
    p.resolve? r = if p.generationOf r.slot = r.generation then p.nodeIn? r.slot else none := by
  unfold resolve? generationOf nodeIn?
  cases p.slots[r.slot]? with
  | some s => rfl
  | none => simp

theorem nodeIn?_of_resolve? {r : NodeRef} {n : Node} (h : p.resolve? r = some n) :
    p.nodeIn? r.slot = some n := by
  rw [resolve?_eq] at h
  split at h
  · exact h
  · cases h

theorem lt_of_nodeIn? {i : Nat} {n : Node} (h : p.nodeIn? i = some n) : i < p.slots.length := by
  obtain ⟨s, hs, -⟩ := Option.bind_eq_some_iff.mp h
  exact (List.getElem?_eq_some_iff.mp hs).1

theorem node?_of_table? {name : String} {t : Table} (h : p.table? name = some t) :
    p.node? name = some (.table t) := by
  obtain ⟨n, hn, ht⟩ := Option.bind_eq_some_iff.mp h
  cases n with
  | table u =>
    cases ht
    exact hn
  | conditional => cases ht

theorem node?_of_conditional? {name : String} {c : Conditional} (h : p.conditional? name = some c) :
    p.node? name = some (.conditional c) := by
  obtain ⟨n, hn, hc⟩ := Option.bind_eq_some_iff.mp h
  cases n with
  | table => cases hc
  | conditional d =>
    cases hc
    exact hn

/-- The nodes of a pipeline are those in its slots. -/
theorem mem_nodes_iff {n : Node} : n ∈ p.nodes ↔ ∃ i, p.nodeIn? i = some n := by
  unfold nodes nodeIn?
  rw [List.mem_filterMap]
  constructor
  · rintro ⟨s, hs, hn⟩
    obtain ⟨i, hi⟩ := List.mem_iff_getElem?.mp hs
    exact ⟨i, Option.bind_eq_some_iff.mpr ⟨s, hi, hn⟩⟩
  · rintro ⟨i, hi⟩
    obtain ⟨s, hs, hn⟩ := Option.bind_eq_some_iff.mp hi
    exact ⟨s, List.mem_of_getElem? hs, hn⟩

/-- The nodes of a pipeline are those in a long enough row of slots. -/
theorem nodes_eq_filterMap {p : Pipeline} {k : Nat} (h : p.slots.length ≤ k) :
    p.nodes = (List.range k).filterMap p.nodeIn? := by
  have hslots : ∀ l : List Slot, ∀ k, l.length ≤ k →
      l.filterMap Slot.node? = (List.range k).filterMap fun i => l[i]?.bind Slot.node? := by
    intro l
    induction l with
    | nil => simp
    | cons s l ih =>
      rintro (_ | k) hk
      · cases hk
      · rw [List.range_succ_eq_map, List.filterMap_cons, List.filterMap_cons, List.filterMap_map,
          ih k (Nat.le_of_succ_le_succ hk)]
        rfl
  exact hslots p.slots k h

/-- Where each slot has what becomes of the node that another pipeline has in it, so do the rows of
nodes. -/
theorem nodes_eq_of_nodeIn? {p p' : Pipeline} {f : Node → Option Node}
    (h : ∀ i, p'.nodeIn? i = (p.nodeIn? i).bind f) : p'.nodes = p.nodes.filterMap f := by
  rw [nodes_eq_filterMap (Nat.le_max_left p'.slots.length p.slots.length),
    nodes_eq_filterMap (Nat.le_max_right p'.slots.length p.slots.length), List.filterMap_filterMap]
  exact List.filterMap_congr fun i _ => h i

/-- Where no two slots hold nodes of one name, every name is that of one node. -/
theorem nodup_map_name_of_slots
    (h : ∀ i j n m, p.nodeIn? i = some n → p.nodeIn? j = some m → n.name = m.name → i = j) :
    (p.nodes.map Node.name).Nodup := by
  rw [List.Nodup, List.pairwise_map, nodes, List.pairwise_filterMap, List.pairwise_iff_getElem]
  intro i j hi hj hij n hn m hm hname
  have hni : p.nodeIn? i = some n := by
    rw [nodeIn?, List.getElem?_eq_getElem hi, Option.bind_some, hn]
  have hmj : p.nodeIn? j = some m := by
    rw [nodeIn?, List.getElem?_eq_getElem hj, Option.bind_some, hm]
  exact Nat.ne_of_lt hij (h i j n m hni hmj hname)

theorem mem_nodes_of_resolve? {r : NodeRef} {n : Node} (h : p.resolve? r = some n) : n ∈ p.nodes :=
  mem_nodes_iff.mpr ⟨r.slot, nodeIn?_of_resolve? h⟩

theorem mem_nodes_of_node? {name : String} {n : Node} (h : p.node? name = some n) :
    n ∈ p.nodes := by
  obtain ⟨r, -, hr⟩ := Option.bind_eq_some_iff.mp h
  exact mem_nodes_of_resolve? hr

theorem mem_nodes_of_table? {name : String} {t : Table} (h : p.table? name = some t) :
    Node.table t ∈ p.nodes :=
  mem_nodes_of_node? (node?_of_table? h)

/-! ### Operations on the slots -/

theorem getElem?_modify_slot (f : Slot → Slot) (slots : List Slot) (i j : Nat) :
    (slots.modify i f)[j]? = if j = i then slots[j]?.map f else slots[j]? := by
  rw [List.getElem?_modify]
  by_cases h : i = j
  · simp [h]
  · simp [h, Ne.symm h]

/-- A node is inserted under a name that is free, and is found under it. -/
theorem find?_insertNode {n : Node} {r : NodeRef} (h : p.insertNode n = .ok (r, p')) :
    p.find? n.name = none ∧
      ∀ name, p'.find? name = if name = n.name then some r else p.find? name := by
  unfold insertNode at h
  split at h
  case isTrue => cases h
  case isFalse hname =>
    have hname' : p.find? n.name = none := by simpa using hname
    split at h <;> cases h <;>
      exact ⟨hname', fun name => Assoc.lookup_cons_eq n.name _ p.byName name⟩

/-- A name under which a node was deleted is free. -/
theorem find?_removeNode (p : Pipeline) (name key : String) :
    (p.removeNode name).find? key = if key = name then none else p.find? key := by
  unfold removeNode
  split
  case h_1 hnone =>
    split
    case isTrue h => exact h ▸ hnone
    case isFalse => rfl
  case h_2 r _ => exact Assoc.lookup_erase name p.byName key

/-- A node goes to an empty slot, under the generation that the slot is in. -/
theorem insertNode_ok {n : Node} {r : NodeRef} (hfree : p.FreeSlots)
    (h : p.insertNode n = .ok (r, p')) :
    p.find? n.name = none ∧ p.nodeIn? r.slot = none ∧ r.generation = p.generationOf r.slot ∧
      (∀ i, p'.nodeIn? i = if i = r.slot then some n else p.nodeIn? i) ∧
      (∀ i, p'.generationOf i = p.generationOf i) ∧
      (∀ name, p'.find? name = if name = n.name then some r else p.find? name) ∧
      p'.FreeSlots ∧ p'.init = p.init := by
  obtain ⟨hname', hfind⟩ := find?_insertNode h
  unfold insertNode at h
  split at h
  case isTrue => cases h
  case isFalse =>
    split at h
    case h_1 hnil =>
      cases h
      -- the new slot is the first one beyond those that are there
      have hslots : ∀ i, (p.slots ++ [{ node? := some n : Slot }])[i]? =
          if i = p.slots.length then some { node? := some n } else p.slots[i]? := by
        intro i
        rw [List.getElem?_append]
        split
        case isTrue hi => rw [if_neg (by omega)]
        case isFalse hi =>
          by_cases hi' : i = p.slots.length
          · simp [hi']
          · rw [if_neg hi', List.getElem?_eq_none (l := p.slots) (by omega),
              List.getElem?_eq_none (by simp; omega)]
      refine ⟨hname', by simp [nodeIn?], by simp [generationOf], ?_, ?_, hfind, ?_, rfl⟩
      · intro i
        unfold nodeIn?
        dsimp only
        rw [hslots]
        split <;> rfl
      · intro i
        unfold generationOf
        dsimp only
        rw [hslots]
        split
        case isTrue hi => simp [hi]
        case isFalse => rfl
      · exact ⟨by simp [hnil], by simp [hnil], by simp [hnil]⟩
    case h_2 k free hcons =>
      cases h
      have hk : k ∈ p.free := hcons ▸ List.mem_cons_self
      have hlt := hfree.lt k hk
      have hnodup : k ∉ free ∧ free.Nodup := List.nodup_cons.mp (hcons ▸ hfree.nodup)
      have hsub : ∀ i ∈ free, i ∈ p.free := fun i hi => hcons ▸ List.mem_cons_of_mem k hi
      have hnode : ∀ i, (({ p with
          slots := p.slots.modify k fun s => { s with node? := some n }, free,
          byName := (n.name, ⟨k, (p.slots[k]?.getD {}).generation⟩) :: p.byName } :
            Pipeline).nodeIn? i) = if i = k then some n else p.nodeIn? i := by
        intro i
        unfold nodeIn?
        dsimp only
        rw [getElem?_modify_slot]
        by_cases hi : i = k
        · subst hi
          simp [List.getElem?_eq_getElem hlt]
        · rw [if_neg hi, if_neg hi]
      refine ⟨hname', hfree.empty k hk, ?_, hnode, ?_, hfind, ?_, rfl⟩
      · simp [generationOf, List.getElem?_eq_getElem hlt]
      · intro i
        unfold generationOf
        dsimp only
        rw [getElem?_modify_slot]
        split
        case isTrue hi => rw [Option.map_map]; rfl
        case isFalse => rfl
      · refine ⟨hnodup.2, ?_, ?_⟩
        · intro i hi
          rw [List.length_modify]
          exact hfree.lt i (hsub i hi)
        · intro i hi
          have hne : i ≠ k := fun he => hnodup.1 (he ▸ hi)
          rw [hnode, if_neg hne]
          exact hfree.empty i (hsub i hi)

theorem removeNode_of_none {name : String} (h : p.find? name = none) : p.removeNode name = p := by
  rw [removeNode, h]

/-- What a deletion changes, when the name is in use. -/
theorem removeNode_of_find? {name : String} {r : NodeRef} (h : p.find? name = some r) :
    p.removeNode name = { p with
      slots := p.slots.modify r.slot fun s => ⟨s.generation + 1, none⟩
      free := r.slot :: p.free
      byName := Assoc.erase name p.byName } := by
  rw [removeNode, h]

/-- A node that is deleted leaves its slot empty and in its next generation. -/
theorem removeNode_ok {name : String} {r : NodeRef} {n : Node} (hfree : p.FreeSlots)
    (hr : p.find? name = some r) (hn : p.nodeIn? r.slot = some n) :
    (∀ i, (p.removeNode name).nodeIn? i = if i = r.slot then none else p.nodeIn? i) ∧
      (∀ i, (p.removeNode name).generationOf i =
        if i = r.slot then p.generationOf i + 1 else p.generationOf i) ∧
      (∀ key, (p.removeNode name).find? key = if key = name then none else p.find? key) ∧
      (p.removeNode name).FreeSlots ∧ (p.removeNode name).init = p.init := by
  have hlt := lt_of_nodeIn? hn
  have heq := removeNode_of_find? hr
  have hnode : ∀ i, (p.removeNode name).nodeIn? i =
      if i = r.slot then none else p.nodeIn? i := by
    intro i
    rw [heq]
    unfold nodeIn?
    dsimp only
    rw [getElem?_modify_slot]
    by_cases hi : i = r.slot
    · subst hi
      simp [List.getElem?_eq_getElem hlt]
    · rw [if_neg hi, if_neg hi]
  refine ⟨hnode, ?_, p.find?_removeNode name, ⟨?_, ?_, ?_⟩, by rw [heq]⟩
  · intro i
    rw [heq]
    unfold generationOf
    dsimp only
    rw [getElem?_modify_slot]
    by_cases hi : i = r.slot
    · subst hi
      simp [List.getElem?_eq_getElem hlt]
    · rw [if_neg hi, if_neg hi]
  · rw [heq]
    -- the slot that gets free held a node, and free slots hold none
    refine List.nodup_cons.mpr ⟨?_, hfree.nodup⟩
    intro hmem
    rw [hfree.empty _ hmem] at hn
    cases hn
  · intro i hi
    rw [heq] at hi ⊢
    rw [List.length_modify]
    rcases List.mem_cons.mp hi with rfl | hi
    · exact hlt
    · exact hfree.lt i hi
  · intro i hi
    rw [hnode]
    rw [heq] at hi
    rcases List.mem_cons.mp hi with rfl | hi
    · rw [if_pos rfl]
    · split
      · rfl
      · exact hfree.empty i hi

theorem modifyNode_of_none {name : String} (f : Node → Node) (h : p.find? name = none) :
    p.modifyNode name f = p := by
  rw [modifyNode, h]

/-- What a change of a node changes, when the name is in use. -/
theorem modifyNode_of_find? {name : String} {r : NodeRef} (f : Node → Node)
    (h : p.find? name = some r) : p.modifyNode name f = { p with
      slots := p.slots.modify r.slot fun s =>
        if s.generation = r.generation then { s with node? := s.node?.map f } else s } := by
  rw [modifyNode, h]

/-- A change of a node leaves the generations of the slots. -/
theorem generationOf_modifyNode (name : String) (f : Node → Node) (i : Nat) :
    (p.modifyNode name f).generationOf i = p.generationOf i := by
  unfold modifyNode
  split
  · rfl
  case h_2 r _ =>
    unfold generationOf
    dsimp only
    rw [getElem?_modify_slot]
    split
    case isTrue =>
      rw [Option.map_map]
      have hkeep : (Slot.generation ∘ fun s => if s.generation = r.generation then
          { s with node? := s.node?.map f } else s) = Slot.generation := by
        funext s
        rw [Function.comp_apply]
        split <;> rfl
      rw [hkeep]
    case isFalse => rfl

/-- A change of a node happens in its slot. -/
theorem modifyNode_ok {name : String} {r : NodeRef} (f : Node → Node)
    (hr : p.find? name = some r) (hg : p.generationOf r.slot = r.generation) :
    (∀ i, (p.modifyNode name f).nodeIn? i =
        if i = r.slot then (p.nodeIn? i).map f else p.nodeIn? i) ∧
      (∀ i, (p.modifyNode name f).generationOf i = p.generationOf i) := by
  have heq := modifyNode_of_find? f hr
  constructor
  · intro i
    rw [heq]
    unfold nodeIn?
    dsimp only
    rw [getElem?_modify_slot]
    split
    case isTrue hi =>
      subst hi
      -- the reference is of the generation of its slot, so the slot is not passed over
      unfold generationOf at hg
      cases hs : p.slots[r.slot]? with
      | none => rfl
      | some s =>
        rw [hs] at hg
        have hg' : s.generation = r.generation := hg
        simp [hg']
    case isFalse => rfl
  · exact generationOf_modifyNode name f

/-- An insertion adds one node to those that are there. -/
theorem mem_nodes_insertNode_iff (hfree : p.FreeSlots) {n m : Node} {r : NodeRef}
    (h : p.insertNode n = .ok (r, p')) : m ∈ p'.nodes ↔ m = n ∨ m ∈ p.nodes := by
  obtain ⟨-, hempty, -, hnode, -⟩ := insertNode_ok hfree h
  simp only [mem_nodes_iff, hnode]
  constructor
  · rintro ⟨i, hi⟩
    split at hi
    · exact Or.inl (Option.some.inj hi).symm
    · exact Or.inr ⟨i, hi⟩
  · rintro (rfl | ⟨i, hi⟩)
    · exact ⟨r.slot, if_pos rfl⟩
    · refine ⟨i, ?_⟩
      rw [if_neg, hi]
      rintro rfl
      rw [hempty] at hi
      cases hi

/-! ### What the operations leave alone -/

theorem identity_insertNode {n : Node} {r : NodeRef} (h : p.insertNode n = .ok (r, p')) :
    p'.identity = p.identity := by
  unfold insertNode at h
  split at h
  · cases h
  · split at h <;> cases h <;> rfl

theorem extra_insertNode {n : Node} {r : NodeRef} (h : p.insertNode n = .ok (r, p')) :
    p'.extra = p.extra := by
  unfold insertNode at h
  split at h
  · cases h
  · split at h <;> cases h <;> rfl

theorem init_insertNode {n : Node} {r : NodeRef} (h : p.insertNode n = .ok (r, p')) :
    p'.init = p.init := by
  unfold insertNode at h
  split at h
  · cases h
  · split at h <;> cases h <;> rfl

@[simp] theorem extra_removeNode (name : String) : (p.removeNode name).extra = p.extra := by
  unfold removeNode
  split <;> rfl

@[simp] theorem identity_removeNode (name : String) :
    (p.removeNode name).identity = p.identity := by
  unfold removeNode
  split <;> rfl

section

variable (name : String) (f : Node → Node)

@[simp] theorem identity_modifyNode : (p.modifyNode name f).identity = p.identity := by
  unfold modifyNode
  split <;> rfl

@[simp] theorem extra_modifyNode : (p.modifyNode name f).extra = p.extra := by
  unfold modifyNode
  split <;> rfl

@[simp] theorem init_modifyNode : (p.modifyNode name f).init = p.init := by
  unfold modifyNode
  split <;> rfl

@[simp] theorem byName_modifyNode : (p.modifyNode name f).byName = p.byName := by
  unfold modifyNode
  split <;> rfl

@[simp] theorem free_modifyNode : (p.modifyNode name f).free = p.free := by
  unfold modifyNode
  split <;> rfl

@[simp] theorem find?_modifyNode (key : String) :
    (p.modifyNode name f).find? key = p.find? key := by
  rw [find?, byName_modifyNode, find?]

@[simp] theorem length_modifyNode : (p.modifyNode name f).slots.length = p.slots.length := by
  unfold modifyNode
  split
  · rfl
  · exact List.length_modify _ _ _

end

end LiveSwitch.Pipeline
