import LiveSwitch.Proofs.Document.Revisions
import LiveSwitch.Proofs.Switch.Locality
import LiveSwitch.Proofs.Switch.Reloading

/-!
# The document follows the program

Whatever plans did to a program before, the next edit changes its document by one small revision.
What is inserted comes last, as long as the next id is above all others, which it is unless the
counter has come round; and no stale edge turns up again in the slot that a node takes.  The edges
that are null after a deletion are those that led to the node.

## Main results

* `Pipeline.Follows.renamed_insertNode`, `renamed_modifyNode`, `renamed_removeNode` — where the
  edges of a pipeline lead by name after each change.
* `Pipeline.Indexed.nodes_changeConditional`, `nodes_changeTable` — the nodes stay in their order
  when one of them changes.
* `Program.document_revised` — an edit of a program, in the middle of any plan, is a revision of
  its document.
* `Program.next_array_comes_first` — an array that is not listed last.
-/

namespace LiveSwitch

namespace Pipeline

variable {p p' : Pipeline} {w : Wiring} {seat : Nat → Seat}

/-! ### Names at the ends of edges -/

/-- Edges of nodes are edges at a place. -/
theorem Follows.edgeAt?_port (h : p.Follows w seat) {n : Node} (hn : n ∈ p.nodes) {q : Port}
    {e : Edge} (he : n.edgeAt? q = some e) : p.edgeAt? (.port n.name q) = some e := by
  rw [Pipeline.edgeAt?, h.indexed.node?_of_mem hn, Option.bind_some, he]

/-- An edge that does not lead to a node leads where it did when only that node changes. -/
theorem SameOff.nodeName?_eq {name : String} (h : p.SameOff name p') {place : Place} {e : Edge}
    (he : p.edgeAt? place = some e) (hoff : p.nodeName? e ≠ some name) :
    p'.nodeName? e = p.nodeName? e := by
  cases e with
  | none => rfl
  | some r =>
    have hresolve := h.resolve place r he fun n hn hname => hoff (by
      rw [nodeName?, Option.bind_some, hn, Option.map_some, hname])
    rw [nodeName?, nodeName?, Option.bind_some, Option.bind_some, hresolve]

/-- An edge of a pipeline leads to no name that is free. -/
theorem Follows.nodeName?_ne (h : p.Follows w seat) {name : String} (hfree : p.find? name = none)
    (e : Edge) : p.nodeName? e ≠ some name := by
  intro hname
  obtain ⟨n, hn, rfl⟩ := List.mem_map.mp (mem_of_nodeName? hname)
  have hnode := h.indexed.node?_of_mem hn
  rw [node?, hfree] at hnode
  cases hnode

theorem Follows.renamed_insertNode (h : p.Follows w seat) (hbound : w.Bounded) {n : Node}
    {r : NodeRef} (hins : p.insertNode n = .ok (r, p')) : p.Renamed id p' := by
  have hoff := h.sameOff_insertNode hbound hins
  have hfree := (find?_insertNode hins).1
  have hedge : ∀ place e, p.edgeAt? place = some e → p'.nodeName? e = p.nodeName? e :=
    fun place e he => hoff.nodeName?_eq he (h.nodeName?_ne hfree e)
  refine ⟨identity_insertNode hins, extra_insertNode hins, ?_, fun m hm q e he => ?_⟩
  · rw [hoff.init]
    exact hedge .start p.init rfl
  · exact hedge _ e (h.edgeAt?_port hm he)

/-- A change of a node that keeps its name changes no name at the end of an edge. -/
theorem Follows.nodeName?_modifyNode (h : p.Follows w seat) (name : String) {f : Node → Node}
    (hf : ∀ n, (f n).name = n.name) (e : Edge) :
    (p.modifyNode name f).nodeName? e = p.nodeName? e := by
  cases e with
  | none => rfl
  | some r =>
    rw [nodeName?, nodeName?, Option.bind_some, Option.bind_some, h.indexed.resolve?_modifyNode,
      Option.map_map]
    refine Option.map_congr fun n _ => ?_
    show (if n.name = name then f n else n).name = n.name
    split
    · exact hf n
    · rfl

theorem Follows.renamed_modifyNode (h : p.Follows w seat) (name : String) {f : Node → Node}
    (hf : ∀ n, (f n).name = n.name) : p.Renamed id (p.modifyNode name f) where
  identity := identity_modifyNode name f
  extra := extra_modifyNode name f
  init := by rw [init_modifyNode, h.nodeName?_modifyNode name hf, id]
  edges _ _ _ e _ := h.nodeName?_modifyNode name hf e

/-- No edge leads to a node once it is deleted. -/
theorem Follows.nodeName?_removeNode (h : p.Follows w seat) {name : String} {e : Edge}
    (he : p.nodeName? e = some name) : (p.removeNode name).nodeName? e = none := by
  obtain ⟨n, hn, hname⟩ := Option.map_eq_some_iff.mp he
  obtain ⟨r, rfl, hresolve⟩ := Option.bind_eq_some_iff.mp hn
  have hr := (h.indexed.found name r).mpr ⟨n, hresolve, hname⟩
  rw [nodeName?, Option.bind_some, h.indexed.resolve?_removeNode hr, if_pos rfl]
  rfl

/-- The edges to a deleted node lead nowhere, and all others lead where they did. -/
theorem Follows.renamed_removeNode (h : p.Follows w seat) {name : String} {r : NodeRef}
    (hr : p.find? name = some r) :
    p.Renamed (fun target? => target?.filter (· != name)) (p.removeNode name) := by
  have hoff := h.sameOff_removeNode hr
  have hedge : ∀ place e, p.edgeAt? place = some e →
      (p.removeNode name).nodeName? e = (p.nodeName? e).filter (· != name) := by
    intro place e he
    by_cases hname : p.nodeName? e = some name
    · rw [hname, Option.filter_some_neg (by simp), h.nodeName?_removeNode hname]
    · rw [hoff.nodeName?_eq he hname]
      cases htarget : p.nodeName? e with
      | none => rfl
      | some name' =>
        rw [htarget] at hname
        rw [Option.filter_some_pos (by simpa using fun heq => hname (congrArg some heq))]
  refine ⟨identity_removeNode name, extra_removeNode name, ?_, fun m hm q e he => ?_⟩
  · rw [hoff.init]
    exact hedge .start p.init rfl
  · exact hedge _ e (h.edgeAt?_port hm he)

/-! ### Edges made for names -/

/-- An edge that was made for a name leads to it. -/
theorem Follows.nodeName?_edgeTo (h : p.Follows w seat) {target? : Option String} {e : Edge}
    (he : p.edgeTo target? = .ok e) : p.nodeName? e = target? := by
  obtain ⟨rfl, hnone⟩ := edgeTo_eq_ok.mp he
  cases target? with
  | none => rfl
  | some target =>
    cases hr : p.find? target with
    | none => exact absurd (hnone hr) (by simp)
    | some r =>
      obtain ⟨n, hn, hname⟩ := (h.indexed.found target r).mp hr
      simp only [Option.bind_some, hr, nodeName?, hn, Option.map_some, hname]

/-- An edge is made alike after an insertion. -/
theorem edgeTo_insertNode {n : Node} {r : NodeRef} (hins : p.insertNode n = .ok (r, p'))
    {target? : Option String} {e : Edge} (he : p.edgeTo target? = .ok e) :
    p'.edgeTo target? = .ok e := by
  obtain ⟨hfree, hfind⟩ := find?_insertNode hins
  cases target? with
  | none => exact he
  | some target =>
    obtain ⟨rfl, hnone⟩ := edgeTo_eq_ok.mp he
    refine edgeTo_eq_ok.mpr ⟨?_, hnone⟩
    rw [Option.bind_some, Option.bind_some, hfind, if_neg]
    rintro rfl
    exact absurd (hnone hfree) (by simp)

end Pipeline

/-! ### Tables and conditionals -/

namespace Pipeline

variable {p p' : Pipeline} {name : String}

/-- Tables and conditionals are in their order without the node of a name. -/
theorem tables_filter (h : p'.nodes = p.nodes.filter fun n => n.name != name) :
    p'.tables = p.tables.filter fun t => nameOf t != name := by
  rw [tables, tables, ← sortById_filter, h, List.filterMap_filter, List.filter_filterMap]
  refine congrArg sortById (List.filterMap_congr fun n _ => ?_)
  cases n with
  | table t => exact (Option.filter_some (p := fun t : Table => nameOf t != name)).symm
  | conditional c => exact ite_self none

theorem conditionals_filter (h : p'.nodes = p.nodes.filter fun n => n.name != name) :
    p'.conditionals = p.conditionals.filter fun c => nameOf c != name := by
  rw [conditionals, conditionals, ← sortById_filter, h, List.filterMap_filter,
    List.filter_filterMap]
  refine congrArg sortById (List.filterMap_congr fun n _ => ?_)
  cases n with
  | table t => exact ite_self none
  | conditional c =>
    exact (Option.filter_some (p := fun c : Conditional => nameOf c != name)).symm

namespace Indexed

/-- Nodes of a pipeline with one name are the same. -/
theorem eq_of_name (h : p.Indexed) {n m : Node} (hn : n ∈ p.nodes) (hm : m ∈ p.nodes)
    (hname : n.name = m.name) : n = m := by
  have hnode := h.node?_of_mem hn
  rw [hname, h.node?_of_mem hm, Option.some.injEq] at hnode
  exact hnode.symm

/-- Tables and conditionals share their names. -/
theorem nameOf_ne (h : p.Indexed) {t : Table} {c : Conditional} (ht : t ∈ p.tables)
    (hc : c ∈ p.conditionals) : nameOf t ≠ nameOf c := fun hname => by
  cases h.eq_of_name (mem_tables.mp ht) (mem_conditionals.mp hc) hname

theorem mem_of_conditional? (h : p.Indexed) {c : Conditional} (hc : p.conditional? name = some c) :
    c ∈ p.conditionals ∧ nameOf c = name := by
  obtain ⟨hmem, hname⟩ := h.node?_eq_some_iff.mp (node?_of_conditional? hc)
  exact ⟨mem_conditionals.mpr hmem, hname⟩

theorem mem_of_table? (h : p.Indexed) {t : Table} (ht : p.table? name = some t) :
    t ∈ p.tables ∧ nameOf t = name := by
  obtain ⟨hmem, hname⟩ := h.node?_eq_some_iff.mp (node?_of_table? ht)
  exact ⟨mem_tables.mpr hmem, hname⟩

section Change

variable {α : Type} {pick : Node → Option α} {n : Node} {f : Node → Node}

/-- A change of a node leaves the nodes of the other kind. -/
theorem pick_modifyNode_none (h : p.Indexed) (hn : p.node? name = some n) (hpick : pick n = none)
    (hpick' : pick (f n) = none) :
    (p.modifyNode name f).nodes.filterMap pick = p.nodes.filterMap pick := by
  obtain ⟨hmem, rfl⟩ := h.node?_eq_some_iff.mp hn
  rw [h.nodes_modifyNode, List.filterMap_map]
  refine List.filterMap_congr fun m hm => ?_
  rw [Function.comp_apply]
  split
  case isTrue hname => rw [h.eq_of_name hm hmem hname, hpick, hpick']
  case isFalse => rfl

/-- A change of a node that keeps its id leaves the nodes of its kind in their order. -/
theorem pick_modifyNode_some [LiveSwitch.Named α] (h : p.Indexed)
    (hn : p.node? name = some n) {a a' : α} (hpick : pick n = some a)
    (hpick' : pick (f n) = some a') (hid : idOf a' = idOf a)
    (hnames : ∀ m b, pick m = some b → nameOf b = m.name) :
    sortById ((p.modifyNode name f).nodes.filterMap pick) =
      (sortById (p.nodes.filterMap pick)).map fun b => if nameOf b = nameOf a then a' else b := by
  obtain ⟨hmem, rfl⟩ := h.node?_eq_some_iff.mp hn
  have hself {m : Node} {b : α} (hm : m ∈ p.nodes) (hb : pick m = some b)
      (hname : nameOf b = nameOf a) : m = n :=
    h.eq_of_name hm hmem ((hnames m b hb).symm.trans (hname.trans (hnames n a hpick)))
  have hids : ∀ b ∈ p.nodes.filterMap pick,
      idOf (if nameOf b = nameOf a then a' else b) = idOf b := by
    intro b hb
    obtain ⟨m, hm, hb⟩ := List.mem_filterMap.mp hb
    split
    case isTrue hname =>
      obtain rfl := hself hm hb hname
      obtain rfl := Option.some.inj (hpick.symm.trans hb)
      exact hid
    case isFalse => rfl
  rw [← sortById_map hids, h.nodes_modifyNode, List.filterMap_map, List.map_filterMap]
  refine congrArg sortById (List.filterMap_congr fun m hm => ?_)
  rw [Function.comp_apply]
  split
  case isTrue hname =>
    rw [h.eq_of_name hm hmem hname, hpick, hpick', Option.map_some, if_pos rfl]
  case isFalse hname =>
    cases hb : pick m with
    | none => rfl
    | some b => rw [Option.map_some, if_neg fun heq => hname (congrArg _ (hself hm hb heq))]

end Change

/-- A change of a conditional leaves the tables, and the conditionals in their order. -/
theorem nodes_changeConditional (h : p.Indexed) {c c' : Conditional}
    (hc : p.conditional? name = some c) {f : Node → Node}
    (hf : f (.conditional c) = .conditional c') (hid : idOf c' = idOf c) :
    (p.modifyNode name f).tables = p.tables ∧ (p.modifyNode name f).conditionals =
      p.conditionals.map fun b => if nameOf b = nameOf c then c' else b := by
  have hnode := node?_of_conditional? hc
  have hpick' : (f (.conditional c)).conditional? = some c' := by rw [hf]; rfl
  refine ⟨congrArg sortById ?_, h.pick_modifyNode_some hnode rfl hpick' hid fun m b hb => ?_⟩
  · exact h.pick_modifyNode_none hnode rfl (by rw [hf]; rfl)
  · cases m with
    | table t => cases hb
    | conditional d =>
      obtain rfl := Option.some.inj hb
      rfl

/-- A change of a table leaves the conditionals, and the tables in their order. -/
theorem nodes_changeTable (h : p.Indexed) {t t' : Table} (ht : p.table? name = some t)
    {f : Node → Node} (hf : f (.table t) = .table t') (hid : idOf t' = idOf t) :
    (p.modifyNode name f).conditionals = p.conditionals ∧ (p.modifyNode name f).tables =
      p.tables.map fun b => if nameOf b = nameOf t then t' else b := by
  have hnode := node?_of_table? ht
  have hpick' : (f (.table t)).table? = some t' := by rw [hf]; rfl
  refine ⟨congrArg sortById ?_, h.pick_modifyNode_some hnode rfl hpick' hid fun m b hb => ?_⟩
  · exact h.pick_modifyNode_none hnode rfl (by rw [hf]; rfl)
  · cases m with
    | conditional c => cases hb
    | table u =>
      obtain rfl := Option.some.inj hb
      rfl

end Indexed

end Pipeline

/-- In a list in the order of ids, an object with an id above all others comes last. -/
theorem eq_filter_append {α : Type} [Named α] {l : List α} (hl : (l.map idOf).Pairwise (· ≤ ·))
    (hnames : (l.map nameOf).Nodup) {a : α} (ha : a ∈ l)
    (hid : ∀ b ∈ l.filter (fun b => nameOf b != nameOf a), idOf b < idOf a) :
    l = l.filter (fun b => nameOf b != nameOf a) ++ [a] := by
  obtain ⟨l₁, l₂, rfl, h₁, h₂⟩ := split_named hnames ha
  have hnil : l₂ = [] := by
    refine List.eq_nil_iff_forall_not_mem.mpr fun b hb => ?_
    rw [List.pairwise_map, List.pairwise_append, List.pairwise_cons] at hl
    have hmem : b ∈ (l₁ ++ a :: l₂).filter fun b => nameOf b != nameOf a :=
      List.mem_filter.mpr ⟨by simp [hb], bne_iff_ne.mpr (h₂ b hb)⟩
    exact absurd (hl.2.1.1 b hb) (Int.not_le.mpr (hid b hmem))
  subst hnil
  rw [List.filter_append, List.filter_eq_self.mpr fun b hb => bne_iff_ne.mpr (h₁ b hb)]
  simp

/-! ### Revisions of one pipeline -/

namespace Program

variable {g g' : Program} {pipeline name : String} {p p' : Pipeline} {log log' : Log}

theorem mem_setPipeline (hp : g.pipeline? pipeline = some p) :
    p' ∈ (g.setPipeline pipeline p').pipelines.objects := by
  obtain ⟨hmem, hname⟩ := ObjectMap.mem_of_get? hp
  exact ObjectMap.mem_modify.mpr ⟨p, hmem, (if_pos hname).symm⟩

/-- A program in the middle of a plan, as far as its document is concerned. -/
structure Listed (g : Program) (log : Log) : Prop where
  pipelines : g.pipelines.Consistent
  follows : g.Follows log
  keyed : g.AllNodes fun n => ∀ t ∈ n.table?, t.Keyed

/-- A conditional joins a pipeline under the next id, above the ids of the other conditionals. -/
theorem Listed.revise_insert (h : g.Listed log) (hbound : g.Bounded log)
    (hp : g.pipeline? pipeline = some p) {c : Conditional}
    (hid : ∀ d ∈ p.conditionals, idOf d < idOf c) {r : NodeRef}
    (hins : p.insertNode (.conditional c) = .ok (r, p')) :
    g.records.changePipeline pipeline (fun q => some (q.append (c.toRecord p'))) =
      some (g.setPipeline pipeline p').records := by
  obtain ⟨hmem, -⟩ := ObjectMap.mem_of_get? hp
  obtain ⟨seat, hseat⟩ := h.follows p hmem
  have hrenamed := hseat.renamed_insertNode (hbound p hmem) hins
  have hindexed := hseat.indexed.insertNode hins
  have hnodes : p.nodes = p'.nodes.filter fun n => n.name != nameOf c :=
    hseat.indexed.nodes_of_insertNode hins
  have hc : c ∈ p'.conditionals := Pipeline.mem_conditionals.mpr
    ((Pipeline.mem_nodes_insertNode_iff hseat.slots hins).mpr (Or.inl rfl))
  have htables : p'.tables = p.tables := by
    rw [Pipeline.tables_filter hnodes]
    exact (List.filter_eq_self.mpr fun t ht => bne_iff_ne.mpr (hindexed.nameOf_ne ht hc)).symm
  have hconditionals : p'.conditionals = p.conditionals ++ [c] := by
    rw [Pipeline.conditionals_filter hnodes] at hid ⊢
    exact eq_filter_append (Pipeline.pairwise_sortById _) hindexed.nodup_names.2 hc hid
  refine records_setPipeline h.pipelines hp (congrArg some ?_)
  exact (hrenamed.toRecord_append (fun t ht => h.keyed p hmem _ ht t rfl) htables
    hconditionals).symm

/-- An edge of a conditional is changed. -/
theorem Listed.revise_setNext (h : g.Listed log) (hp : g.pipeline? pipeline = some p)
    {c : Conditional} (hc : p.conditional? name = some c) {branch : Branch}
    {target? : Option String} {e : Edge} (he : p.edgeTo target? = .ok e)
    (hp' : p' = p.modifyNode name (Node.setEdge (.branch branch) e)) :
    g.records.changePipeline pipeline (·.changeConditional name (·.setNext branch target?)) =
      some (g.setPipeline pipeline p').records := by
  obtain ⟨hmem, -⟩ := ObjectMap.mem_of_get? hp
  obtain ⟨seat, hseat⟩ := h.follows p hmem
  obtain ⟨hcs, hname⟩ := hseat.indexed.mem_of_conditional? hc
  have hid : idOf (c.setNext branch e) = idOf c := by cases branch <;> rfl
  obtain ⟨htables, hconditionals⟩ := hseat.indexed.nodes_changeConditional
    (f := Node.setEdge (.branch branch) e) hc rfl hid
  rw [← hp'] at htables hconditionals
  have hnames (e : Edge) : p'.nodeName? e = p.nodeName? e := by
    rw [hp', hseat.nodeName?_modifyNode name (Node.name_setEdge (.branch branch) _)]
  have hrecord : (c.setNext branch e).toRecord p' = (c.toRecord p).setNext branch target? := by
    have htarget := hseat.nodeName?_edgeTo he
    cases branch <;> simp only [Conditional.setNext, Conditional.toRecord,
      ConditionalRecord.setNext, hnames, htarget]
  have hrenamed : p.Renamed id p' :=
    hp' ▸ hseat.renamed_modifyNode name (Node.name_setEdge (.branch branch) e)
  subst hname
  refine records_setPipeline h.pipelines hp ?_
  exact hrenamed.toRecord_change (fun t ht => h.keyed p hmem _ ht t rfl)
    hseat.indexed.nodup_names.2 hcs htables hconditionals hrecord

/-- A conditional leaves a pipeline. -/
theorem Listed.revise_deleteConditional (h : g.Listed log) (hp : g.pipeline? pipeline = some p)
    {c : Conditional} (hc : p.conditional? name = some c) :
    g.records.changePipeline pipeline (·.dropConditional name) =
      some (g.setPipeline pipeline (p.removeNode name)).records := by
  obtain ⟨hmem, -⟩ := ObjectMap.mem_of_get? hp
  obtain ⟨seat, hseat⟩ := h.follows p hmem
  obtain ⟨r, hr⟩ := find?_of_node? (Pipeline.node?_of_conditional? hc)
  obtain ⟨hcs, hname⟩ := hseat.indexed.mem_of_conditional? hc
  have hnodes := hseat.indexed.nodes_removeNode hr
  have htables : (p.removeNode name).tables = p.tables := by
    rw [Pipeline.tables_filter hnodes]
    refine List.filter_eq_self.mpr fun t ht => bne_iff_ne.mpr ?_
    exact hname ▸ hseat.indexed.nameOf_ne ht hcs
  refine records_setPipeline h.pipelines hp ?_
  exact (hseat.renamed_removeNode hr).toRecord_dropConditional
    (fun t ht => h.keyed p hmem _ ht t rfl) hseat.indexed.nodup_names.2 hcs hname htables
    (Pipeline.conditionals_filter hnodes)

/-- A table leaves a pipeline. -/
theorem Listed.revise_deleteTable (h : g.Listed log) (hp : g.pipeline? pipeline = some p)
    {t : Table} (ht : p.table? name = some t) :
    g.records.changePipeline pipeline (·.dropTable name) =
      some (g.setPipeline pipeline (p.removeNode name)).records := by
  obtain ⟨hmem, -⟩ := ObjectMap.mem_of_get? hp
  obtain ⟨seat, hseat⟩ := h.follows p hmem
  obtain ⟨r, hr⟩ := find?_of_node? (Pipeline.node?_of_table? ht)
  obtain ⟨hts, hname⟩ := hseat.indexed.mem_of_table? ht
  have hnodes := hseat.indexed.nodes_removeNode hr
  have hconditionals : (p.removeNode name).conditionals = p.conditionals := by
    rw [Pipeline.conditionals_filter hnodes]
    refine List.filter_eq_self.mpr fun c hc => bne_iff_ne.mpr ?_
    exact hname ▸ (hseat.indexed.nameOf_ne hts hc).symm
  refine records_setPipeline h.pipelines hp ?_
  exact (hseat.renamed_removeNode hr).toRecord_dropTable
    (fun t ht => h.keyed p hmem _ ht t rfl) hseat.indexed.nodup_names.1 hts hname
    (Pipeline.tables_filter hnodes) hconditionals

/-! ### All edits -/

/-- What is known of a program in the middle of a plan. -/
theorem Reached.foldlM {g₀ donor : Program} {s₀ s : Store} {l : List Edit} (h₀ : g₀.Reached)
    (hrun : l.foldlM (Edit.run donor) (g₀, s₀) = .ok (g, s)) : (∃ log, g.Traced log) ∧
      g.arrays.Consistent ∧ g.AllNodes fun n => ∀ t ∈ n.table?, t.Keyed := by
  obtain ⟨log₀, hlog₀⟩ := h₀.traced
  refine ⟨hlog₀.edits hrun, ?_, ?_⟩
  · exact foldlM_induction (P := fun x : Program × Store => x.1.arrays.Consistent)
      (fun e _ _ _ hg hstep => Edit.consistent_run hg hstep) h₀.sound.arraysConsistent hrun
  · exact Edit.allNodes_foldlM Table.invariant_keyed (h₀.allNodes Table.invariant_keyed) hrun

/-- The next edit of a plan changes the document by its revision, and by nothing else: an inserted
conditional comes last in its pipeline, under the next id; a change of an edge shows in one field;
a deletion drops one entry and makes null every field of the pipeline that named it; a register
array is added at the end, changed in its size or its width, or dropped; and a rehash does not
show.  Of an insertion that is said as long as the next id is above the others, and of a node as
long as no slot was freed 2³² times. -/
theorem document_revised {g₀ donor g g' : Program} {s₀ s s' : Store} {l : List Edit} {e : Edit}
    (h₀ : g₀.Reached) (hrun : l.foldlM (Edit.run donor) (g₀, s₀) = .ok (g, s))
    (he : e.isRevision = true) (hlast : e.ComesLast g)
    (hslots : e.insertsNode = true → ∃ log, g.Traced log ∧ g.Bounded log)
    (hstep : e.run donor (g, s) = .ok (g', s')) :
    g.document = g.records.encode ∧
      ∃ r, e.revise donor g g.records = some r ∧ g'.document = r.encode := by
  refine ⟨g.document_eq, g'.records, ?_, g'.document_eq⟩
  obtain ⟨⟨log, htraced⟩, harrays, hkeyed⟩ := h₀.foldlM hrun
  by_cases hnodes : e.onNodes = false
  · exact revise_array harrays hnodes hlast hstep
  have hlisted : ∀ {log}, g.Traced log → g.Listed log := fun htraced =>
    ⟨htraced.pipelinesConsistent, htraced.follows, hkeyed⟩
  cases e with
  | insertConditional pipeline name =>
    obtain ⟨hg, rfl⟩ := pair_eq_ok.mp hstep
    obtain ⟨p, d, r, p', hp, hd, hins, rfl⟩ := insertConditional_ok hg
    obtain ⟨log, htraced, hbound⟩ := hslots rfl
    rw [Edit.revise, hd]
    refine (hlisted htraced).revise_insert hbound hp ?_ hins
    exact hlast p hp
  | insertFlex pipeline name false? true? =>
    obtain ⟨hg, rfl⟩ := pair_eq_ok.mp hstep
    obtain ⟨p, falseNext, trueNext, r, p', hp, hfalse, htrue, hins, rfl⟩ := insertFlex_ok hg
    obtain ⟨log, htraced, hbound⟩ := hslots rfl
    have hid : ∀ d ∈ p.conditionals, idOf d < g.conditionalIds.next := hlast p hp
    have hrevise := (hlisted htraced).revise_insert hbound hp (by exact hid) hins
    obtain ⟨seat, hseat⟩ := (htraced.edit hstep).follows p' (mem_setPipeline hp)
    rw [Conditional.toRecord, hseat.nodeName?_edgeTo (Pipeline.edgeTo_insertNode hins htrue),
      hseat.nodeName?_edgeTo (Pipeline.edgeTo_insertNode hins hfalse)] at hrevise
    exact hrevise
  | setConditionalNext pipeline name branch target? =>
    obtain ⟨hg, rfl⟩ := pair_eq_ok.mp hstep
    obtain ⟨p, edge, c, hp, hedge, hc, rfl⟩ := setConditionalNext_ok hg
    exact (hlisted htraced).revise_setNext hp hc hedge rfl
  | deleteConditional pipeline name =>
    obtain ⟨hg, rfl⟩ := pair_eq_ok.mp hstep
    obtain ⟨p, c, hp, hc, rfl⟩ := deleteConditional_ok hg
    exact (hlisted htraced).revise_deleteConditional hp hc
  | deleteTable pipeline name =>
    obtain ⟨hg, rfl⟩ := pair_eq_ok.mp hstep
    obtain ⟨p, t, hp, ht, rfl⟩ := deleteTable_ok hg
    exact (hlisted htraced).revise_deleteTable hp ht
  | insertTable | setTableNext => cases he
  | _ => exact absurd rfl hnodes

/-- A stale edge stays null in the document when its slot is taken again. -/
theorem reinserted_flex_is_appended :
    flexDeleted.insertFlex "p" "a" none none = .ok (flexProgram 1 1) ∧
      flexDeleted.records.pipelines = [⟨⟨"p", 0, none⟩, none, [], [], []⟩] ∧
      (flexProgram 1 1).document = Records.encode { flexDeleted.records with
        pipelines := [⟨⟨"p", 0, none⟩, none, [],
          [⟨⟨"a", 1, none⟩, none, none, none, true, []⟩], []⟩] } := by
  have hload : ofDocument {} flexDocument = .ok (flexProgram 0 0, {}) := rfl
  have hdelete : Edit.run (flexProgram 0 0) (flexProgram 0 0, {}) (.deleteConditional "p" "a") =
      .ok (flexDeleted, {}) := rfl
  have hinsert : Edit.run (flexProgram 0 0) (flexDeleted, {}) (.insertFlex "p" "a" none none) =
      .ok (flexProgram 1 1, {}) := rfl
  have htraced : flexDeleted.Traced (flexLog.dropLast : Log) := (Traced.load hload).edit hdelete
  have hbound : flexDeleted.Bounded (flexLog.dropLast : Log) := by
    intro p hp i
    rw [List.mem_singleton.mp hp]
    show (if i = 0 then 0 + 1 else 0) < UInt32.size
    split <;> decide
  have hlast : (Edit.insertFlex "p" "a" none none).ComesLast flexDeleted := by
    intro p hp c hc
    rw [List.mem_singleton.mp (ObjectMap.mem_of_get? hp).1] at hc
    exact absurd (Pipeline.mem_conditionals.mp hc) List.not_mem_nil
  obtain ⟨-, r, hr, hdocument⟩ := document_revised (l := [.deleteConditional "p" "a"])
    (Reached.load hload) (foldlM_cons_eq_ok.mpr ⟨_, hdelete, rfl⟩) rfl hlast
    (fun _ => ⟨_, htraced, hbound⟩) hinsert
  have hpipelines : flexDeleted.records.pipelines = [⟨⟨"p", 0, none⟩, none, [], [], []⟩] := by
    decide +kernel
  refine ⟨rfl, hpipelines, hdocument.trans ?_⟩
  rw [Edit.revise, Records.changePipeline, hpipelines] at hr
  exact congrArg Records.encode (Option.some.inj hr).symm

/-- A document of one register array, which has the largest id. -/
def lastArrayDocument : Json.Value :=
  .object [("register_arrays", .array [.object
    [("bitwidth", .ofNat 8), ("id", .ofInt maxId), ("name", .string "y"), ("size", .ofNat 1)]])]

/-- Another array gets the smallest id and comes first. -/
theorem next_array_comes_first : ∃ g s g' s', ofDocument {} lastArrayDocument = .ok (g, s) ∧
    g.insertArray s "z" 1 8 = .ok (g', s') ∧ g'.records.arrays.map nameOf = ["z", "y"] := by
  have hfacts : (ofDocument {} lastArrayDocument).toOption.any (fun x =>
      (x.1.insertArray x.2 "z" 1 8).toOption.any fun y =>
        y.1.records.arrays.map nameOf == ["z", "y"]) = true := by decide +kernel
  obtain ⟨⟨g, s⟩, hg, hfacts⟩ := exists_of_any_toOption hfacts
  obtain ⟨⟨g', s'⟩, hg', hnames⟩ := exists_of_any_toOption hfacts
  exact ⟨g, s, g', s', hg, hg', beq_iff_eq.mp hnames⟩

end Program

end LiveSwitch
