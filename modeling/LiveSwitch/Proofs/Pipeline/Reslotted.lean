import LiveSwitch.Document.Render
import LiveSwitch.Proofs.Pipeline.Packed
import LiveSwitch.Proofs.Pipeline.Ports
import Mathlib.Logic.Equiv.Basic

/-!
# Slots in another order

Nodes that are inserted in another order get other slots.  The numbers of the slots show
nowhere: a pipeline whose slots are permuted, in its edges too, finds the same nodes by their
names and is written as the same record.

## Main definitions

* `NodeRef.reslot`, `Node.reslot` — the action of a permutation of slots.
* `Pipeline.Reslotted` — a pipeline is another one with its slots permuted.

## Main results

* `Pipeline.Reslotted.node?`, `nodeName?` — what is found by a name, and what an edge leads to.
* `Pipeline.Reslotted.modifyNode` — a change of a node and the same change elsewhere.
* `Pipeline.Reslotted.toRecord` — the same record.
-/

namespace LiveSwitch

open Equiv (Perm)

variable {σ τ : Perm Nat}

/-! ### The action on nodes -/

/-- The reference to the slot of another number. -/
def NodeRef.reslot (σ : Perm Nat) (r : NodeRef) : NodeRef := { r with slot := σ r.slot }

/-- The edge to the slot of another number. -/
def reslotEdge (σ : Perm Nat) (e : Edge) : Edge := e.map (NodeRef.reslot σ)

/-- The conditional with its edges in permuted slots. -/
def Conditional.reslot (σ : Perm Nat) (c : Conditional) : Conditional :=
  { c with trueNext := reslotEdge σ c.trueNext, falseNext := reslotEdge σ c.falseNext }

/-- The table with its edges in permuted slots. -/
def Table.reslot (σ : Perm Nat) (t : Table) : Table :=
  { t with
    nextByAction := t.nextByAction.map fun x => (x.1, reslotEdge σ x.2)
    hitNext? := t.hitNext?.map (reslotEdge σ)
    missNext? := t.missNext?.map (reslotEdge σ)
    baseNext := reslotEdge σ t.baseNext }

namespace Node

/-- The node with its edges in permuted slots. -/
def reslot (σ : Perm Nat) : Node → Node
  | conditional c => conditional (c.reslot σ)
  | table t => table (t.reslot σ)

@[simp] theorem identity_reslot (n : Node) : (n.reslot σ).identity = n.identity := by
  cases n <;> rfl

@[simp] theorem name_reslot (n : Node) : (n.reslot σ).name = n.name := by
  rw [name, identity_reslot, name]

/-- A node that has no edges yet. -/
def Bare (n : Node) : Prop := ∀ σ : Perm Nat, n.reslot σ = n

end Node

theorem reslotEdge_trans (e : Edge) :
    reslotEdge τ (reslotEdge σ e) = reslotEdge (σ.trans τ) e := by
  cases e <;> rfl

theorem reslotEdge_refl (e : Edge) : reslotEdge (Equiv.refl Nat) e = e := by
  cases e <;> rfl

theorem Node.reslot_trans (n : Node) : (n.reslot σ).reslot τ = n.reslot (σ.trans τ) := by
  cases n with
  | conditional c => simp only [reslot, Conditional.reslot, reslotEdge_trans]
  | table t =>
    simp only [reslot, Table.reslot, reslotEdge_trans, List.map_map, Option.map_map,
      Function.comp_def]

theorem Node.reslot_refl (n : Node) : n.reslot (Equiv.refl Nat) = n := by
  have hedge : reslotEdge (Equiv.refl Nat) = id := funext reslotEdge_refl
  cases n with
  | conditional c => simp only [reslot, Conditional.reslot, hedge, id]
  | table t =>
    simp only [reslot, Table.reslot, hedge, id_eq, Prod.eta, List.map_id', Option.map_id]

namespace Table

theorem reslot_setActionNext (id : Int) (e : Edge) (t : Table) :
    (t.setActionNext id e).reslot σ = (t.reslot σ).setActionNext id (reslotEdge σ e) := by
  have hinsert (l : List (Int × Edge)) :
      (Assoc.insert id e l).map (fun x => (x.1, reslotEdge σ x.2)) =
        Assoc.insert id (reslotEdge σ e) (l.map fun x => (x.1, reslotEdge σ x.2)) := by
    induction l with
    | nil => rfl
    | cons x l ih =>
      obtain ⟨k, v⟩ := x
      simp only [Assoc.insert, List.map_cons]
      split
      · rfl
      · split
        · rfl
        · rw [List.map_cons, ih]
  simp only [setActionNext, reslot, hinsert]

end Table

namespace Pipeline

/-! ### The action on pipelines -/

/-- The slot with the edges of its node in permuted slots. -/
def reslotSlot (σ : Perm Nat) (s : Slot) : Slot := { s with node? := s.node?.map (Node.reslot σ) }

/-- A pipeline is another one with its slots permuted. -/
structure Reslotted (σ : Perm Nat) (p p' : Pipeline) : Prop where
  identity : p'.identity = p.identity
  extra : p'.extra = p.extra
  init : p'.init = reslotEdge σ p.init
  slot : ∀ i, p'.slots[σ i]? = p.slots[i]?.map (reslotSlot σ)
  find : ∀ name, p'.find? name = (p.find? name).map (NodeRef.reslot σ)

namespace Reslotted

variable {p p' p'' : Pipeline}

theorem refl (p : Pipeline) : p.Reslotted (Equiv.refl Nat) p where
  identity := rfl
  extra := rfl
  init := (reslotEdge_refl _).symm
  slot i := by
    have hslot : reslotSlot (Equiv.refl Nat) = id := by
      funext s
      rw [reslotSlot, funext Node.reslot_refl]
      exact congrArg (Slot.mk s.generation) (Option.map_id' ..)
    rw [hslot, Option.map_id]
    rfl
  find name := by
    have href : NodeRef.reslot (Equiv.refl Nat) = id := rfl
    rw [href, Option.map_id]
    rfl

theorem trans (h : p.Reslotted σ p') (h' : p'.Reslotted τ p'') :
    p.Reslotted (σ.trans τ) p'' where
  identity := h'.identity.trans h.identity
  extra := h'.extra.trans h.extra
  init := by rw [h'.init, h.init, reslotEdge_trans]
  slot i := by
    have hslot : reslotSlot τ ∘ reslotSlot σ = reslotSlot (σ.trans τ) := by
      funext s
      simp only [Function.comp, reslotSlot, Option.map_map, Function.comp_def,
        Node.reslot_trans]
    rw [Equiv.trans_apply, h'.slot, h.slot, Option.map_map, hslot]
  find name := by
    rw [h'.find, h.find, Option.map_map]
    rfl

/-- A reference resolves to the same node. -/
theorem resolve? (h : p.Reslotted σ p') (r : NodeRef) :
    p'.resolve? (r.reslot σ) = (p.resolve? r).map (Node.reslot σ) := by
  rw [Pipeline.resolve?, Pipeline.resolve?, NodeRef.reslot, h.slot]
  cases p.slots[r.slot]? with
  | none => rfl
  | some s =>
    rw [Option.map_some, reslotSlot]
    dsimp only
    split <;> rfl

theorem node? (h : p.Reslotted σ p') (name : String) :
    p'.node? name = (p.node? name).map (Node.reslot σ) := by
  rw [Pipeline.node?, Pipeline.node?, h.find]
  cases p.find? name with
  | none => rfl
  | some r => exact h.resolve? r

theorem nodeName? (h : p.Reslotted σ p') (e : Edge) :
    p'.nodeName? (reslotEdge σ e) = p.nodeName? e := by
  rw [Pipeline.nodeName?, Pipeline.nodeName?]
  cases e with
  | none => rfl
  | some r =>
    show (p'.resolve? (r.reslot σ)).map Node.name = (p.resolve? r).map Node.name
    rw [h.resolve?, Option.map_map]
    exact congrArg (Option.map · _) (funext fun n => n.name_reslot)

theorem mem_nodes (h : p.Reslotted σ p') {n' : Node} :
    n' ∈ p'.nodes ↔ ∃ n ∈ p.nodes, n.reslot σ = n' := by
  have hnode (i : Nat) : p'.nodeIn? (σ i) = (p.nodeIn? i).map (Node.reslot σ) := by
    rw [nodeIn?, nodeIn?, h.slot]
    cases p.slots[i]? <;> rfl
  simp only [mem_nodes_iff]
  constructor
  · rintro ⟨j, hj⟩
    rw [← σ.apply_symm_apply j, hnode, Option.map_eq_some_iff] at hj
    obtain ⟨n, hn, heq⟩ := hj
    exact ⟨n, ⟨_, hn⟩, heq⟩
  · rintro ⟨n, ⟨i, hi⟩, rfl⟩
    exact ⟨σ i, by rw [hnode, hi, Option.map_some]⟩

/-! ### Changes of nodes -/

/-- The same change of one node. -/
theorem modifyNode (h : p.Reslotted σ p') (name : String) {f f' : Node → Node}
    (hf : ∀ n, f' (n.reslot σ) = (f n).reslot σ) :
    (p.modifyNode name f).Reslotted σ (p'.modifyNode name f') where
  identity := by rw [identity_modifyNode, identity_modifyNode, h.identity]
  extra := by rw [extra_modifyNode, extra_modifyNode, h.extra]
  init := by rw [init_modifyNode, init_modifyNode, h.init]
  slot i := by
    cases hr : p.find? name with
    | none =>
      have hr' : p'.find? name = none := by rw [h.find, hr, Option.map_none]
      rw [modifyNode_of_none f hr, modifyNode_of_none f' hr', h.slot]
    | some r =>
      have hr' : p'.find? name = some (r.reslot σ) := by rw [h.find, hr, Option.map_some]
      rw [Pipeline.modifyNode, Pipeline.modifyNode, hr, hr']
      dsimp only
      rw [getElem?_modify_slot, getElem?_modify_slot, h.slot]
      by_cases hi : i = r.slot
      · have hi' : σ i = (r.reslot σ).slot := congrArg σ hi
        rw [if_pos hi, if_pos hi']
        cases p.slots[i]? with
        | none => rfl
        | some s =>
          simp only [Option.map_some, reslotSlot, NodeRef.reslot]
          by_cases hs : s.generation = r.generation
          · simp [hs, Function.comp_def, hf]
          · simp [hs]
      · have hi' : σ i ≠ (r.reslot σ).slot := fun heq => hi (σ.injective heq)
        rw [if_neg hi, if_neg hi']
  find key := by rw [find?_modifyNode, find?_modifyNode, h.find]

end Reslotted

/-! ### The record -/

section

variable {p p' : Pipeline}

theorem Conditional.toRecord_reslot (h : p.Reslotted σ p') (c : Conditional) :
    (c.reslot σ).toRecord p' = c.toRecord p := by
  simp only [Conditional.toRecord, Conditional.reslot, h.nodeName?]

theorem Table.toRecord_reslot (h : p.Reslotted σ p') (actions : ActionTable) (t : Table) :
    (t.reslot σ).toRecord p' actions = t.toRecord p actions := by
  have hedge : ∀ e, p'.edgeJson (reslotEdge σ e) = p.edgeJson e := fun e => by
    rw [edgeJson, h.nodeName?, edgeJson]
  have hnext : (t.reslot σ).nextTables p' actions = t.nextTables p actions := by
    simp only [Table.nextTables, Table.reslot, List.filterMap_map, Function.comp_def, hedge,
      Option.toList_map, List.map_map]
  rw [Table.toRecord, hnext]
  simp only [Table.toRecord, Table.reslot, h.nodeName?]

/-- Tables that are in the order of their ids stay in that order. -/
theorem Reslotted.tables (h : p.Reslotted σ p') (hids : (p.tables.map idOf).Pairwise (· < ·))
    (hids' : (p'.tables.map idOf).Pairwise (· < ·)) :
    p'.tables = p.tables.map (Table.reslot σ) := by
  have hsame : (p.tables.map (Table.reslot σ)).map idOf = p.tables.map idOf := List.map_map
  refine eq_of_mem_iff hids' (hsame ▸ hids) fun t => ?_
  rw [mem_tables, h.mem_nodes, List.mem_map]
  constructor
  · rintro ⟨n, hn, heq⟩
    cases n with
    | table t₀ => exact ⟨t₀, mem_tables.mpr hn, Node.table.inj heq⟩
    | conditional c => cases heq
  · rintro ⟨t₀, ht₀, rfl⟩
    exact ⟨.table t₀, mem_tables.mp ht₀, rfl⟩

/-- So do conditionals. -/
theorem Reslotted.conditionals (h : p.Reslotted σ p')
    (hids : (p.conditionals.map idOf).Pairwise (· < ·))
    (hids' : (p'.conditionals.map idOf).Pairwise (· < ·)) :
    p'.conditionals = p.conditionals.map (Conditional.reslot σ) := by
  have hsame : (p.conditionals.map (Conditional.reslot σ)).map idOf = p.conditionals.map idOf :=
    List.map_map
  refine eq_of_mem_iff hids' (hsame ▸ hids) fun c => ?_
  rw [mem_conditionals, h.mem_nodes, List.mem_map]
  constructor
  · rintro ⟨n, hn, heq⟩
    cases n with
    | table t => cases heq
    | conditional c₀ => exact ⟨c₀, mem_conditionals.mpr hn, Node.conditional.inj heq⟩
  · rintro ⟨c₀, hc₀, rfl⟩
    exact ⟨.conditional c₀, mem_conditionals.mp hc₀, rfl⟩

/-- The slots do not show in the record of a pipeline. -/
theorem Reslotted.toRecord (h : p.Reslotted σ p') (actions : ActionTable)
    (htables : p'.tables = p.tables.map (Table.reslot σ))
    (hconditionals : p'.conditionals = p.conditionals.map (Conditional.reslot σ)) :
    p'.toRecord actions = p.toRecord actions := by
  have hinit : p'.nodeName? p'.init = p.nodeName? p.init := by rw [h.init, h.nodeName?]
  simp only [Pipeline.toRecord, htables, hconditionals, List.map_map, Function.comp_def, hinit,
    h.identity, h.extra, Conditional.toRecord_reslot h, Table.toRecord_reslot h]

end

/-! ### Pipelines with the same nodes -/

/-- A list in another order is the list under other indices. -/
theorem exists_reindex {α : Type} {l l' : List α} (h : l.Perm l') :
    ∃ σ : Perm Nat, ∀ i, l'[σ i]? = l[i]? := by
  induction h with
  | nil => exact ⟨Equiv.refl Nat, fun i => rfl⟩
  | @cons a l l' _ ih =>
    obtain ⟨σ, hσ⟩ := ih
    -- index zero stays, and the others are moved as in the tails
    let shift (τ : Perm Nat) : Nat → Nat := fun i => i.casesOn 0 fun i => τ i + 1
    have hinv : ∀ τ i, shift τ.symm (shift τ i) = i := by
      intro τ i
      cases i with
      | zero => rfl
      | succ i => exact congrArg (· + 1) (τ.symm_apply_apply i)
    refine ⟨⟨shift σ, shift σ.symm, hinv σ, fun i => ?_⟩, fun i => ?_⟩
    · exact hinv σ.symm i
    · cases i with
      | zero => rfl
      | succ i => exact hσ i
  | swap a b l =>
    refine ⟨Equiv.swap 0 1, fun i => ?_⟩
    match i with
    | 0 => rfl
    | 1 => rfl
    | i + 2 => rw [Equiv.swap_apply_of_ne_of_ne (by omega) (by omega)]; rfl
  | trans _ _ ih ih' =>
    obtain ⟨σ, hσ⟩ := ih
    obtain ⟨τ, hτ⟩ := ih'
    exact ⟨σ.trans τ, fun i => (hτ (σ i)).trans (hσ i)⟩

namespace Packed

variable {p p' : Pipeline} {ns ns' : List Node}

/-- Nodes without edges that were inserted in another order. -/
theorem reslotted (h : p.Packed ns) (h' : p'.Packed ns') (hidentity : p'.identity = p.identity)
    (hextra : p'.extra = p.extra) (hinit : p.init = none) (hinit' : p'.init = none)
    (hbare : ∀ n ∈ ns, n.Bare) (hperm : ns.Perm ns') : ∃ σ, p.Reslotted σ p' := by
  obtain ⟨σ, hσ⟩ := exists_reindex hperm
  refine ⟨σ, hidentity, hextra, by rw [hinit, hinit']; rfl, fun i => ?_, fun name => ?_⟩
  -- a node without edges is the same in any slot
  · rw [h.slots, h'.slots, List.getElem?_map, List.getElem?_map, hσ]
    cases hi : ns[i]? with
    | none => rfl
    | some n =>
      simp only [Option.map_some, reslotSlot, hbare n (List.mem_of_getElem? hi) σ]
  · by_cases hname : name ∈ ns.map Node.name
    · obtain ⟨n, hn, rfl⟩ := List.mem_map.mp hname
      obtain ⟨i, hi⟩ := List.mem_iff_getElem?.mp hn
      rw [h.found i n hi, h'.found (σ i) n ((hσ i).trans hi)]
      rfl
    · have hname' : name ∉ ns'.map Node.name := fun hmem =>
        hname ((hperm.map Node.name).mem_iff.mpr hmem)
      rw [h.find?_eq_none hname, h'.find?_eq_none hname', Option.map_none]

theorem slot_ne (h : p.Packed ns) {name name' : String} (hne : name ≠ name') {r r' : NodeRef}
    (hr : p.find? name = some r) (hr' : p.find? name' = some r') : r.slot ≠ r'.slot := by
  intro heq
  obtain ⟨n, hn, rfl, -⟩ := h.named name r hr
  obtain ⟨n', hn', rfl, -⟩ := h.named name' r' hr'
  rw [heq, hn', Option.some.injEq] at hn
  exact hne (congrArg Node.name hn.symm)

/-- A change of one node leaves the others alone. -/
theorem node?_modifyNode_of_ne (h : p.Packed ns) {name name' : String} (hne : name ≠ name')
    (f : Node → Node) : (p.modifyNode name f).node? name' = p.node? name' := by
  rw [Pipeline.node?, Pipeline.node?, find?_modifyNode]
  cases hr' : p.find? name' with
  | none => rfl
  | some r' =>
    cases hr : p.find? name with
    | none => rw [modifyNode_of_none f hr]
    | some r =>
      rw [Option.bind_some, Option.bind_some, Pipeline.resolve?, Pipeline.resolve?,
        Pipeline.modifyNode, hr]
      dsimp only
      rw [getElem?_modify_slot, if_neg (h.slot_ne hne hr hr').symm]

/-- Changes of two nodes may be made in any order. -/
theorem modifyNode_comm (h : p.Packed ns) {name name' : String} (hne : name ≠ name')
    (f f' : Node → Node) : (p.modifyNode name f).modifyNode name' f' =
      (p.modifyNode name' f').modifyNode name f := by
  cases hr : p.find? name with
  | none =>
    rw [modifyNode_of_none f hr, modifyNode_of_none f]
    rw [find?_modifyNode, hr]
  | some r =>
    cases hr' : p.find? name' with
    | none =>
      rw [modifyNode_of_none f' hr', modifyNode_of_none f']
      rw [find?_modifyNode, hr']
    | some r' =>
      -- nodes of two names stand in two slots, so neither change sees the other
      have hslot := h.slot_ne hne hr hr'
      rw [modifyNode_of_find? f' ((find?_modifyNode name f name').trans hr'),
        modifyNode_of_find? f ((find?_modifyNode name' f' name).trans hr),
        modifyNode_of_find? f hr, modifyNode_of_find? f' hr']
      dsimp only
      congr 1
      refine List.ext_getElem? fun i => ?_
      simp only [getElem?_modify_slot]
      by_cases hi : i = r.slot
      · simp [hi, hslot]
      · simp [hi]

end Packed

end Pipeline

end LiveSwitch
