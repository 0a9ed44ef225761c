import LiveSwitch.Proofs.Pipeline.Slots
import Mathlib.Data.List.Nodup

/-!
# Pipelines without gaps

A pipeline into which nodes were inserted and from which none was deleted keeps them in one row
of slots, each slot in its first generation.  Such a pipeline is as good as the list of its
nodes: it is what a loader builds.

## Main definitions

* `Pipeline.Packed` — a pipeline holds the nodes of a list, one slot after the other.

## Main results

* `Pipeline.Packed.insert`, `Packed.modify` — an insertion and a change in the list of nodes.
* `Pipeline.Packed.nodeName?_find?` — the name of the node of a name.
* `Pipeline.Packed.tables_eq`, `Packed.conditionals_eq` — tables and conditionals of a pipeline
  whose nodes are in the order of their ids.
-/

namespace LiveSwitch

/-- Lists in the order of ids that have the same members are the same. -/
theorem eq_of_mem_iff {α : Type} [Named α] {l l' : List α} (h : (l.map idOf).Pairwise (· < ·))
    (h' : (l'.map idOf).Pairwise (· < ·)) (hmem : ∀ a, a ∈ l ↔ a ∈ l') : l = l' := by
  rw [List.pairwise_map] at h h'
  have hnodup : ∀ {l : List α}, l.Pairwise (fun a b => idOf a < idOf b) → l.Nodup :=
    fun hl => hl.imp fun hab he => absurd (congrArg idOf he) (Int.ne_of_lt hab)
  have hperm : l.Perm l' := (List.perm_ext_iff_of_nodup (hnodup h) (hnodup h')).mpr hmem
  refine hperm.eq_of_pairwise (fun a b _ _ hab hba => ?_) h h'
  exact absurd hab (Int.not_lt.mpr (Int.le_of_lt hba))

namespace Pipeline

theorem sortById_eq {α : Type} [Named α] {l : List α} (h : (l.map idOf).Pairwise (· ≤ ·)) :
    sortById l = l := by
  refine List.mergeSort_of_pairwise ?_
  refine (List.pairwise_map.mp h).imp fun hab => ?_
  exact decide_eq_true hab

theorem pairwise_sortById {α : Type} [Named α] (l : List α) :
    ((sortById l).map idOf).Pairwise (· ≤ ·) := by
  rw [List.pairwise_map, sortById]
  refine (List.pairwise_mergeSort ?_ ?_ l).imp fun hab => of_decide_eq_true hab
  · intro a b c hab hbc
    rw [decide_eq_true_iff] at *
    exact Int.le_trans hab hbc
  · intro a b
    rw [Bool.or_eq_true, decide_eq_true_iff, decide_eq_true_iff]
    exact Int.le_total _ _

theorem pairwise_ids {α : Type} [Named α] {l : List α} (h : ((sortById l).map idOf).Nodup) :
    ((sortById l).map idOf).Pairwise (· < ·) :=
  (pairwise_sortById l).imp₂ (fun _ _ hle hne => Int.lt_iff_le_and_ne.mpr ⟨hle, hne⟩) h

section

variable {α : Type} [Named α]

/-- Sorting keeps the order of the objects with one id. -/
theorem filter_id_sortById (l : List α) (id : Int) :
    (sortById l).filter (fun a => idOf a == id) = l.filter fun a => idOf a == id := by
  have hsorted : (l.filter fun a => idOf a == id).Pairwise fun a b => decide (idOf a ≤ idOf b) := by
    refine List.pairwise_of_forall_mem_list fun a ha b hb => ?_
    have ha' := beq_iff_eq.mp (List.mem_filter.mp ha).2
    have hb' := beq_iff_eq.mp (List.mem_filter.mp hb).2
    exact decide_eq_true (Int.le_of_eq (ha'.trans hb'.symm))
  have htrans : ∀ a b c : α, decide (idOf a ≤ idOf b) = true → decide (idOf b ≤ idOf c) = true →
      decide (idOf a ≤ idOf c) = true := by
    intro a b c hab hbc
    rw [decide_eq_true_iff] at *
    exact Int.le_trans hab hbc
  have htotal : ∀ a b : α, (decide (idOf a ≤ idOf b) || decide (idOf b ≤ idOf a)) = true := by
    intro a b
    rw [Bool.or_eq_true, decide_eq_true_iff, decide_eq_true_iff]
    exact Int.le_total _ _
  have hsub := (List.sublist_mergeSort htrans htotal hsorted List.filter_sublist).filter
    (fun a => idOf a == id)
  rw [List.filter_filter] at hsub
  simp only [Bool.and_self] at hsub
  exact (hsub.eq_of_length ((List.mergeSort_perm l _).filter _).length_eq.symm).symm

/-- Sorted lists that have the same objects of each id, in the same order, are the same. -/
theorem eq_of_filter_id {l l' : List α} (hl : (l.map idOf).Pairwise (· ≤ ·))
    (hl' : (l'.map idOf).Pairwise (· ≤ ·))
    (h : ∀ id, l.filter (fun a => idOf a == id) = l'.filter fun a => idOf a == id) : l = l' := by
  have hmem : ∀ a, a ∈ l ↔ a ∈ l' := fun a => by simpa using congrArg (a ∈ ·) (h (idOf a))
  induction l generalizing l' with
  | nil =>
    cases l' with
    | nil => rfl
    | cons b l' => exact absurd ((hmem b).mpr List.mem_cons_self) List.not_mem_nil
  | cons a l ih =>
    cases l' with
    | nil => exact absurd ((hmem a).mp List.mem_cons_self) List.not_mem_nil
    | cons b l' =>
      rw [List.map_cons, List.pairwise_cons, List.forall_mem_map] at hl hl'
      -- both start with an object of the least id
      have hab : idOf a = idOf b := by
        refine Int.le_antisymm ?_ ?_
        · rcases List.mem_cons.mp ((hmem b).mpr List.mem_cons_self) with heq | hb
          · exact Int.le_of_eq (congrArg idOf heq.symm)
          · exact hl.1 b hb
        · rcases List.mem_cons.mp ((hmem a).mp List.mem_cons_self) with heq | ha
          · exact Int.le_of_eq (congrArg idOf heq.symm)
          · exact hl'.1 a ha
      have hhead := h (idOf a)
      rw [List.filter_cons_of_pos (by simp), List.filter_cons_of_pos (by simp [hab])] at hhead
      obtain ⟨rfl, -⟩ := List.cons.inj hhead
      have htail : ∀ id, l.filter (fun a => idOf a == id) = l'.filter fun a => idOf a == id := by
        intro id
        have hid := h id
        by_cases ha : idOf a = id
        · rw [List.filter_cons_of_pos (by simp [ha]), List.filter_cons_of_pos (by simp [ha])] at hid
          exact (List.cons.inj hid).2
        · rwa [List.filter_cons_of_neg (by simp [ha]),
            List.filter_cons_of_neg (by simp [ha])] at hid
      rw [ih hl.2 hl'.2 htail fun c => by simpa using congrArg (c ∈ ·) (htail (idOf c))]

/-- Objects may be left out before or after sorting. -/
theorem sortById_filter (f : α → Bool) (l : List α) :
    sortById (l.filter f) = (sortById l).filter f := by
  refine eq_of_filter_id (pairwise_sortById _)
    ((pairwise_sortById l).sublist (List.filter_sublist.map idOf)) fun id => ?_
  rw [filter_id_sortById, List.filter_comm, ← filter_id_sortById l, List.filter_comm]

/-- Changes that keep ids may be made before or after sorting. -/
theorem sortById_map {f : α → α} {l : List α} (hf : ∀ a ∈ l, idOf (f a) = idOf a) :
    sortById (l.map f) = (sortById l).map f := by
  refine (List.map_mergeSort fun a ha b hb => ?_).symm
  rw [hf a ha, hf b hb]

end

/-- Every node is a table or a conditional. -/
theorem perm_nodes (p : Pipeline) :
    (p.tables.map Node.table ++ p.conditionals.map Node.conditional).Perm p.nodes := by
  have hsplit : ∀ l : List Node, ((l.filterMap Node.table?).map Node.table ++
      (l.filterMap Node.conditional?).map Node.conditional).Perm l := by
    intro l
    induction l with
    | nil => exact List.Perm.refl _
    | cons n l ih =>
      cases n with
      | table t => exact ih.cons _
      | conditional c => exact List.perm_middle.trans (ih.cons _)
  have htables : p.tables.Perm (p.nodes.filterMap Node.table?) := List.mergeSort_perm _ _
  have hconditionals : p.conditionals.Perm (p.nodes.filterMap Node.conditional?) :=
    List.mergeSort_perm _ _
  exact ((htables.map _).append (hconditionals.map _)).trans (hsplit p.nodes)

theorem mem_tables {p : Pipeline} {t : Table} : t ∈ p.tables ↔ Node.table t ∈ p.nodes := by
  rw [← (perm_nodes p).mem_iff, List.mem_append]
  simp

theorem mem_conditionals {p : Pipeline} {c : Conditional} :
    c ∈ p.conditionals ↔ Node.conditional c ∈ p.nodes := by
  rw [← (perm_nodes p).mem_iff, List.mem_append]
  simp

/-- The nodes of a list stand in the slots of a pipeline, in order. -/
structure Packed (p : Pipeline) (ns : List Node) : Prop where
  free : p.free = []
  slots : p.slots = ns.map fun n => { node? := some n }
  names : (ns.map Node.name).Nodup
  found : ∀ i n, ns[i]? = some n → p.find? n.name = some ⟨i, 0⟩
  named : ∀ name r, p.find? name = some r → ∃ n, ns[r.slot]? = some n ∧ n.name = name ∧
    r.generation = 0

namespace Packed

variable {p p' : Pipeline} {ns ns' : List Node}

theorem empty (identity : Identity) (extra : Json.Object) :
    ({ identity, extra } : Pipeline).Packed [] where
  free := rfl
  slots := rfl
  names := List.nodup_nil
  found i n h := by cases h
  named name r h := by cases h

/-- A reference of the first generation resolves to the node at its place. -/
theorem resolve? (h : p.Packed ns) (i : Nat) : p.resolve? ⟨i, 0⟩ = ns[i]? := by
  unfold Pipeline.resolve?
  rw [h.slots, List.getElem?_map]
  cases ns[i]? with
  | none => rfl
  | some n => rfl

theorem node? (h : p.Packed ns) {n : Node} (hn : n ∈ ns) : p.node? n.name = some n := by
  obtain ⟨i, hi⟩ := List.mem_iff_getElem?.mp hn
  rw [Pipeline.node?, h.found i n hi, Option.bind_some, h.resolve?, hi]

theorem nodes_eq (h : p.Packed ns) : p.nodes = ns := by
  have hsome : (Slot.node? ∘ fun n : Node => { node? := some n : Slot }) = some := rfl
  rw [nodes, h.slots, List.filterMap_map, hsome, List.filterMap_some]

/-- The name of the node of a name is that name. -/
theorem nodeName?_find? (h : p.Packed ns) {name : String} (hname : name ∈ ns.map Node.name) :
    p.nodeName? (p.find? name) = some name := by
  obtain ⟨n, hn, rfl⟩ := List.mem_map.mp hname
  have hnode := h.node? hn
  rw [Pipeline.node?] at hnode
  rw [nodeName?, hnode, Option.map_some]

theorem find?_eq_none (h : p.Packed ns) {name : String} (hname : name ∉ ns.map Node.name) :
    p.find? name = none := by
  cases hr : p.find? name with
  | none => rfl
  | some r =>
    obtain ⟨n, hn, rfl, -⟩ := h.named name r hr
    exact absurd (List.mem_map_of_mem (List.mem_of_getElem? hn)) hname

/-- A node under a new name goes to the end. -/
theorem insert (h : p.Packed ns) {n : Node} (hname : n.name ∉ ns.map Node.name) :
    ∃ r p', p.insertNode n = .ok (r, p') ∧ p'.Packed (ns ++ [n]) ∧
      p'.identity = p.identity ∧ p'.extra = p.extra := by
  have hnone := h.find?_eq_none hname
  have hlength : p.slots.length = ns.length := by rw [h.slots, List.length_map]
  have hins : p.insertNode n = .ok (⟨p.slots.length, 0⟩, { p with
      slots := p.slots ++ [{ node? := some n }]
      byName := (n.name, ⟨p.slots.length, 0⟩) :: p.byName }) := by
    rw [insertNode, hnone, h.free]
    rfl
  refine ⟨_, _, hins, ?_, rfl, rfl⟩
  have hfind : ∀ name, ({ p with
      slots := p.slots ++ [{ node? := some n }]
      byName := (n.name, ⟨p.slots.length, 0⟩) :: p.byName } : Pipeline).find? name =
        if name = n.name then some ⟨ns.length, 0⟩ else p.find? name := by
    intro name
    rw [← hlength]
    exact Assoc.lookup_cons_eq n.name _ p.byName name
  constructor
  case free => exact h.free
  case slots =>
    show p.slots ++ _ = _
    rw [h.slots, List.map_append, List.map_singleton]
  case names =>
    rw [List.map_append, List.map_singleton]
    refine List.Nodup.append h.names (List.nodup_singleton _) ?_
    intro name hold hnew
    rw [List.mem_singleton.mp hnew] at hold
    exact hname hold
  case found =>
    intro i m hm
    rw [hfind]
    rw [List.getElem?_append] at hm
    split at hm
    case isTrue =>
      have hne : m.name ≠ n.name := by
        intro he
        exact hname (he ▸ List.mem_map_of_mem (List.mem_of_getElem? hm))
      rw [if_neg hne]
      exact h.found i m hm
    case isFalse hi =>
      have hi' : i = ns.length ∧ m = n := by
        cases hk : i - ns.length with
        | zero =>
          rw [hk] at hm
          cases hm
          exact ⟨by omega, rfl⟩
        | succ k =>
          rw [hk] at hm
          cases hm
      rw [hi'.2, if_pos rfl, hi'.1]
  case named =>
    intro name r hr
    rw [hfind] at hr
    split at hr
    case isTrue heq =>
      cases hr
      exact ⟨n, by simp, heq.symm, rfl⟩
    case isFalse =>
      obtain ⟨m, hm, hmname, hgen⟩ := h.named name r hr
      refine ⟨m, ?_, hmname, hgen⟩
      rw [List.getElem?_append_left (List.getElem?_eq_some_iff.mp hm).1]
      exact hm

/-- A node that is inserted goes to the end. -/
theorem of_insertNode (h : p.Packed ns) {n : Node} {r : NodeRef}
    (hins : p.insertNode n = .ok (r, p')) : p'.Packed (ns ++ [n]) := by
  have hname : n.name ∉ ns.map Node.name := by
    intro hmem
    obtain ⟨m, hm, heq⟩ := List.mem_map.mp hmem
    obtain ⟨i, hi⟩ := List.mem_iff_getElem?.mp hm
    rw [insertNode, ← heq, h.found i m hi] at hins
    cases hins
  obtain ⟨r', q, hq, hpacked, -⟩ := h.insert hname
  rw [hins] at hq
  cases hq
  exact hpacked

/-- A change of a node changes the slot at its place. -/
theorem slots_modifyNode (h : p.Packed ns) (name : String) (f : Node → Node) :
    (p.modifyNode name f).slots =
      (ns.map fun n => if n.name = name then f n else n).map fun n => { node? := some n } := by
  cases hr : p.find? name with
  | none =>
    rw [modifyNode_of_none f hr, h.slots]
    refine List.ext_getElem? fun i => ?_
    rw [List.getElem?_map, List.getElem?_map, List.getElem?_map]
    cases hn : ns[i]? with
    | none => rfl
    | some n =>
      have hne : n.name ≠ name := by
        rintro rfl
        rw [h.found i n hn] at hr
        cases hr
      rw [Option.map_some, Option.map_some, Option.map_some, if_neg hne]
  | some r =>
    obtain ⟨m, hm, rfl, hgen⟩ := h.named name r hr
    have hmodify : (p.modifyNode m.name f).slots = p.slots.modify r.slot fun s =>
        if s.generation = r.generation then { s with node? := s.node?.map f } else s := by
      rw [modifyNode, hr]
    rw [hmodify, h.slots, hgen]
    refine List.ext_getElem? fun i => ?_
    rw [getElem?_modify_slot, List.getElem?_map, List.getElem?_map, List.getElem?_map]
    -- the node at the place has the name, and no other has
    cases hn : ns[i]? with
    | none => simp
    | some n =>
      by_cases hi : i = r.slot
      · subst hi
        rw [hm] at hn
        cases hn
        simp
      · have hne : n.name ≠ m.name := by
          intro he
          have hfound := h.found i n hn
          rw [he, hr] at hfound
          cases hfound
          exact hi rfl
        simp [hi, hne]

/-- A change of a node happens at its place. -/
theorem modify (h : p.Packed ns) {name : String} {f : Node → Node}
    (hf : ∀ n ∈ ns, n.name = name → (f n).name = n.name) :
    (p.modifyNode name f).Packed (ns.map fun n => if n.name = name then f n else n) := by
  have hname : ∀ n ∈ ns, (if n.name = name then f n else n).name = n.name := by
    intro n hn
    split
    case isTrue heq => exact hf n hn heq
    case isFalse => rfl
  have hnames : (ns.map fun n => if n.name = name then f n else n).map Node.name =
      ns.map Node.name := by
    rw [List.map_map]
    exact List.map_congr_left hname
  have hget : ∀ {i : Nat} {m : Node},
      (ns.map fun n => if n.name = name then f n else n)[i]? = some m →
      ∃ n, ns[i]? = some n ∧ m.name = n.name := by
    intro i m hm
    rw [List.getElem?_map] at hm
    obtain ⟨n, hn, rfl⟩ := Option.map_eq_some_iff.mp hm
    exact ⟨n, hn, hname n (List.mem_of_getElem? hn)⟩
  constructor
  case free =>
    rw [free_modifyNode]
    exact h.free
  case names =>
    rw [hnames]
    exact h.names
  case found =>
    intro i m hm
    obtain ⟨n, hn, heq⟩ := hget hm
    rw [find?_modifyNode, heq]
    exact h.found i n hn
  case named =>
    intro key r hr
    rw [find?_modifyNode] at hr
    obtain ⟨n, hn, heq, hgen⟩ := h.named key r hr
    refine ⟨_, by rw [List.getElem?_map, hn, Option.map_some], ?_, hgen⟩
    exact (hname n (List.mem_of_getElem? hn)).trans heq
  case slots => exact h.slots_modifyNode name f

/-- Edges lead to the same names in two pipelines whose nodes have the same names. -/
theorem nodeName?_eq (h : p.Packed ns) (h' : p'.Packed ns')
    (hnames : ns.map Node.name = ns'.map Node.name) (e : Edge) :
    p.nodeName? e = p'.nodeName? e := by
  cases e with
  | none => rfl
  | some r =>
    have hget : ns[r.slot]?.map Node.name = ns'[r.slot]?.map Node.name := by
      rw [← List.getElem?_map, hnames, List.getElem?_map]
    unfold nodeName?
    rw [Option.bind_some, Option.bind_some]
    unfold Pipeline.resolve?
    rw [h.slots, h'.slots, List.getElem?_map, List.getElem?_map]
    revert hget
    cases ns[r.slot]? with
    | none =>
      cases ns'[r.slot]? with
      | none => exact fun _ => rfl
      | some => exact nofun
    | some n =>
      cases ns'[r.slot]? with
      | none => exact nofun
      | some n' =>
        intro hget
        simp only [Option.map_some]
        split
        · exact hget
        · rfl

/-! ### Tables and conditionals in the order of their ids -/

variable {ts : List Table} {cs : List Conditional}

theorem tables_eq (h : p.Packed (ts.map Node.table ++ cs.map Node.conditional))
    (hids : (ts.map idOf).Pairwise (· ≤ ·)) : p.tables = ts := by
  have htable : (Node.table? ∘ Node.table) = some := rfl
  have hconditional : (Node.table? ∘ Node.conditional) = fun _ => none := rfl
  rw [tables, h.nodes_eq, List.filterMap_append, List.filterMap_map, List.filterMap_map, htable,
    hconditional, List.filterMap_some, List.filterMap_none, List.append_nil, sortById_eq hids]

theorem conditionals_eq (h : p.Packed (ts.map Node.table ++ cs.map Node.conditional))
    (hids : (cs.map idOf).Pairwise (· ≤ ·)) : p.conditionals = cs := by
  have htable : (Node.conditional? ∘ Node.table) = fun _ => none := rfl
  have hconditional : (Node.conditional? ∘ Node.conditional) = some := rfl
  rw [conditionals, h.nodes_eq, List.filterMap_append, List.filterMap_map, List.filterMap_map,
    htable, hconditional, List.filterMap_some, List.filterMap_none, List.nil_append,
    sortById_eq hids]

end Packed

end Pipeline

end LiveSwitch
