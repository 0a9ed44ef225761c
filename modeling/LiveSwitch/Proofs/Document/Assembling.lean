import LiveSwitch.Proofs.Document.Sound
import LiveSwitch.Proofs.Exchange
import LiveSwitch.Proofs.Pipeline.Reslotted

/-!
# Assembling a pipeline

What a loader does with the record of a pipeline falls into two parts.  The nodes and edges of the
pipeline come from the record alone, given the actions; and its ids and its name must be new.  The
first part does not depend on the order in which the record lists tables and conditionals, but for
the slots of the nodes.

## Main definitions

* `Loader.assemble` — the pipeline of a record.
* `Loader.New` — ids that are in use nowhere.
* `Loader.InParts` — nodes are put in place, and their ids are noted.
* `PipelineRecord.Shuffled` — a record lists the same nodes in another order.

## Main results

* `Loader.addPipeline_iff` — a pipeline is loaded when it can be assembled and is new.
* `Loader.assemble_shuffled` — the order of the nodes in a record does not matter.
-/

namespace LiveSwitch

namespace Loader

variable {g g' : Program} {l l' : Loader} {p p' q u : Pipeline} {ns : List Node}

/-! ### The two parts of loading a pipeline -/

/-- InParts a table without edges, whatever ids are in use. -/
def placeTable (g : Program) (p : Pipeline) (r : TableRecord) : Except LoadError Pipeline := do
  checkActions g r
  addNode p (.table (← Table.ofRecord r))

/-- InParts a conditional without edges, whatever ids are in use. -/
def placeConditional (p : Pipeline) (r : ConditionalRecord) : Except LoadError Pipeline := do
  addNode p (.conditional (← conditionalOf r))

/-- The pipeline of a record, whatever ids are in use. -/
def assemble (g : Program) (r : PipelineRecord) : Except LoadError Pipeline := do
  let p ← r.tables.foldlM (placeTable g) { identity := r.identity, extra := r.extra }
  let p ← r.conditionals.foldlM placeConditional p
  let p ← r.tables.foldlM (linkTable g) p
  let p ← r.conditionals.foldlM linkConditional p
  return { p with init := ← resolve p .pipeline r.identity.name r.init? }

/-- Ids of which no two are the same and none is in use. -/
def New (used ids : List Int) : Prop := ids.Nodup ∧ ∀ id ∈ ids, id ∉ used

theorem new_nil (used : List Int) : New used [] := ⟨List.nodup_nil, List.forall_mem_nil _⟩

theorem new_cons {used ids : List Int} {id : Int} :
    New used (id :: ids) ↔ id ∉ used ∧ New (id :: used) ids := by
  rw [New, New, List.nodup_cons, List.forall_mem_cons]
  simp only [List.mem_cons, not_or]
  constructor
  · rintro ⟨⟨hid, hids⟩, hused, hall⟩
    exact ⟨hused, hids, fun i hi => ⟨fun heq => hid (heq ▸ hi), hall i hi⟩⟩
  · rintro ⟨hused, hids, hall⟩
    exact ⟨⟨fun hmem => (hall id hmem).1 rfl, hids⟩, hused, fun i hi => (hall i hi).2⟩

/-- New ids of two lists may be taken in any order. -/
theorem New.swap {used ids ids' : List Int} (h : New used ids)
    (h' : New (ids.reverse ++ used) ids') : New used ids' ∧ New (ids'.reverse ++ used) ids := by
  have hapart : ∀ id ∈ ids', id ∉ ids ∧ id ∉ used := by
    intro id hid
    simpa only [List.mem_append, List.mem_reverse, not_or] using h'.2 id hid
  refine ⟨⟨h'.1, fun id hid => (hapart id hid).2⟩, h.1, fun id hid => ?_⟩
  rw [List.mem_append, List.mem_reverse, not_or]
  exact ⟨fun hid' => (hapart id hid').1 hid, h.2 id hid⟩

theorem New.perm {used used' ids ids' : List Int} (h : New used ids)
    (hused : ∀ id, id ∈ used' ↔ id ∈ used) (hids : ids.Perm ids') : New used' ids' :=
  ⟨hids.nodup h.1, fun id hid hmem => h.2 id (hids.mem_iff.mpr hid) ((hused id).mp hmem)⟩

theorem placeTable_eq_ok {r : TableRecord} : placeTable g p r = .ok p' ↔
    ∃ t ref, (∀ id ∈ r.actionIds, (g.action? id).isSome) ∧ Table.ofRecord r = .ok t ∧
      p.insertNode (.table t) = .ok (ref, p') := by
  simp only [placeTable, bind_eq_ok, addNode_eq_ok, ← checkActions_eq_ok]
  constructor
  · rintro ⟨_, hactions, t, ht, ref, hins⟩
    exact ⟨t, ref, hactions, ht, hins⟩
  · rintro ⟨t, ref, hactions, ht, hins⟩
    exact ⟨(), hactions, t, ht, ref, hins⟩

theorem placeConditional_eq_ok {r : ConditionalRecord} : placeConditional p r = .ok p' ↔
    ∃ c ref, conditionalOf r = .ok c ∧ p.insertNode (.conditional c) = .ok (ref, p') := by
  simp only [placeConditional, bind_eq_ok, addNode_eq_ok, exists_and_left]

/-- The loader after tables of some ids were added. -/
def noteTables (l : Loader) (ids : List Int) : Loader :=
  { l with
    program := { l.program with tableIds := ids.foldl .observe l.program.tableIds }
    tableIds := ids.reverse ++ l.tableIds }

/-- The loader after conditionals of some ids were added. -/
def noteConditionals (l : Loader) (ids : List Int) : Loader :=
  { l with
    program := { l.program with conditionalIds := ids.foldl .observe l.program.conditionalIds }
    conditionalIds := ids.reverse ++ l.conditionalIds }

section

variable {α : Type} {add : Loader → Pipeline → α → Except LoadError (Loader × Pipeline)}
  {place : Loader → Pipeline → α → Except LoadError Pipeline} {id : α → Int}
  {ids : Loader → List Int} {note : Loader → List Int → Loader}

/-- A record is added in two parts: its node is put in place, and its id, which must be new, is
noted. -/
structure InParts (add : Loader → Pipeline → α → Except LoadError (Loader × Pipeline))
    (place : Loader → Pipeline → α → Except LoadError Pipeline) (id : α → Int)
    (ids : Loader → List Int) (note : Loader → List Int → Loader) : Prop where
  add_eq_ok : ∀ {l l' p p' r}, add l p r = .ok (l', p') ↔
    id r ∉ ids l ∧ place l p r = .ok p' ∧ l' = note l [id r]
  note_nil : ∀ l, note l [] = l
  note_cons : ∀ l i is, note l (i :: is) = note (note l [i]) is
  ids_note : ∀ l i, ids (note l [i]) = i :: ids l
  place_note : ∀ l i, place (note l [i]) = place l

/-- So are the records of a list, whose nodes can be put in place before an id is noted. -/
theorem InParts.foldlM_eq_ok (h : InParts add place id ids note) {records : List α} :
    records.foldlM (fun (l, p) r => add l p r) (l, p) = .ok (l', p') ↔
      records.foldlM (place l) p = .ok p' ∧ New (ids l) (records.map id) ∧
        l' = note l (records.map id) := by
  induction records generalizing l p with
  | nil =>
    rw [foldlM_nil_eq_ok, foldlM_nil_eq_ok, Prod.mk.injEq, List.map_nil, h.note_nil]
    exact ⟨fun ⟨hl, hp⟩ => ⟨hp, new_nil _, hl.symm⟩, fun ⟨hp, _, hl⟩ => ⟨hl.symm, hp⟩⟩
  | cons r records ih =>
    rw [foldlM_cons_eq_ok, foldlM_cons_eq_ok, List.map_cons, new_cons, h.note_cons, ← h.ids_note]
    constructor
    · rintro ⟨⟨l₁, p₁⟩, hadd, hrest⟩
      obtain ⟨hid, hplace, rfl⟩ := h.add_eq_ok.mp hadd
      obtain ⟨hplaces, hnew, rfl⟩ := ih.mp hrest
      rw [h.place_note] at hplaces
      exact ⟨⟨p₁, hplace, hplaces⟩, ⟨hid, hnew⟩, rfl⟩
    · rintro ⟨⟨p₁, hplace, hplaces⟩, ⟨hid, hnew⟩, rfl⟩
      rw [← h.place_note l (id r)] at hplaces
      exact ⟨(_, p₁), h.add_eq_ok.mpr ⟨hid, hplace, rfl⟩, ih.mpr ⟨hplaces, hnew, rfl⟩⟩

end

theorem inParts_tables : InParts addTable (fun l => placeTable l.program) (·.identity.id)
    (·.tableIds) noteTables where
  add_eq_ok := by
    intro l l' p p' r
    rw [addTable_eq_ok, placeTable_eq_ok]
    constructor
    · rintro ⟨t, ref, hid, hactions, ht, hins, rfl⟩
      exact ⟨hid, ⟨t, ref, hactions, ht, hins⟩, rfl⟩
    · rintro ⟨hid, ⟨t, ref, hactions, ht, hins⟩, rfl⟩
      exact ⟨t, ref, hid, hactions, ht, hins, rfl⟩
  note_nil _ := rfl
  note_cons l i is := by
    rw [noteTables, noteTables, List.reverse_cons, List.append_assoc]
    rfl
  ids_note _ _ := rfl
  place_note _ _ := rfl

theorem inParts_conditionals : InParts addConditional (fun _ => placeConditional) (·.identity.id)
    (·.conditionalIds) noteConditionals where
  add_eq_ok := by
    intro l l' p p' r
    rw [addConditional_eq_ok, placeConditional_eq_ok]
    constructor
    · rintro ⟨c, ref, hid, hc, hins, rfl⟩
      exact ⟨hid, ⟨c, ref, hc, hins⟩, rfl⟩
    · rintro ⟨hid, ⟨c, ref, hc, hins⟩, rfl⟩
      exact ⟨c, ref, hid, hc, hins, rfl⟩
  note_nil _ := rfl
  note_cons l i is := by
    rw [noteConditionals, noteConditionals, List.reverse_cons, List.append_assoc]
    rfl
  ids_note _ _ := rfl
  place_note _ _ := rfl

theorem assemble_eq_ok {r : PipelineRecord} : assemble g r = .ok p ↔ ∃ p₁ p₂ p₃ p₄ init,
    r.tables.foldlM (placeTable g) { identity := r.identity, extra := r.extra } = .ok p₁ ∧
      r.conditionals.foldlM placeConditional p₁ = .ok p₂ ∧
      r.tables.foldlM (linkTable g) p₂ = .ok p₃ ∧
      r.conditionals.foldlM linkConditional p₃ = .ok p₄ ∧
      resolve p₄ .pipeline r.identity.name r.init? = .ok init ∧ p = { p₄ with init } := by
  simp only [assemble, bind_eq_ok, pure_eq_ok]
  constructor
  · rintro ⟨p₁, h₁, p₂, h₂, p₃, h₃, p₄, h₄, init, hinit, rfl⟩
    exact ⟨p₁, p₂, p₃, p₄, init, h₁, h₂, h₃, h₄, hinit, rfl⟩
  · rintro ⟨p₁, p₂, p₃, p₄, init, h₁, h₂, h₃, h₄, hinit, rfl⟩
    exact ⟨p₁, h₁, p₂, h₂, p₃, h₃, p₄, h₄, init, hinit, rfl⟩

/-- Only the actions of the program matter. -/
theorem assemble_congr (h : g.actions.actions = g'.actions.actions) (r : PipelineRecord) :
    assemble g r = assemble g' r := by
  unfold assemble placeTable checkActions linkTable linkNext Program.actionNamed? Program.action?
    ActionTable.get?
  rw [h]

/-- The loader after the pipeline of a record joined the others. -/
def join (l : Loader) (r : PipelineRecord) (pipelines : ObjectMap Pipeline) : Loader :=
  let l := l.noteTables (r.tables.map (·.identity.id))
  let l := l.noteConditionals (r.conditionals.map (·.identity.id))
  { l with program := { l.program with pipelines } }

/-- A pipeline is loaded when it can be assembled and its ids and its name are new. -/
theorem addPipeline_iff {r : PipelineRecord} : l.addPipeline r = .ok l' ↔ ∃ p pipelines,
    assemble l.program r = .ok p ∧ New l.tableIds (r.tables.map (·.identity.id)) ∧
      New l.conditionalIds (r.conditionals.map (·.identity.id)) ∧
      l.program.pipelines.insert p = .ok pipelines ∧ l' = l.join r pipelines := by
  rw [addPipeline_eq_ok]
  constructor
  · rintro ⟨l₁, p₁, l₂, p₂, p₃, p₄, init, pipelines, h₁, h₂, h₃, h₄, hinit, hins, rfl⟩
    obtain ⟨hplace₁, hnew₁, rfl⟩ := inParts_tables.foldlM_eq_ok.mp h₁
    obtain ⟨hplace₂, hnew₂, rfl⟩ := inParts_conditionals.foldlM_eq_ok.mp h₂
    exact ⟨_, pipelines,
      assemble_eq_ok.mpr ⟨p₁, p₂, p₃, p₄, init, hplace₁, hplace₂, h₃, h₄, hinit, rfl⟩,
      hnew₁, hnew₂, hins, rfl⟩
  · rintro ⟨p, pipelines, hp, hnew₁, hnew₂, hins, rfl⟩
    obtain ⟨p₁, p₂, p₃, p₄, init, h₁, h₂, h₃, h₄, hinit, rfl⟩ := assemble_eq_ok.mp hp
    exact ⟨_, p₁, _, p₂, p₃, p₄, init, pipelines, inParts_tables.foldlM_eq_ok.mpr ⟨h₁, hnew₁, rfl⟩,
      inParts_conditionals.foldlM_eq_ok.mpr ⟨h₂, hnew₂, rfl⟩, h₃, h₄, hinit, hins, rfl⟩

/-! ### Placing nodes in another order -/

theorem bare_ofRecord {r : TableRecord} {t : Table} (h : Table.ofRecord r = .ok t) :
    (Node.table t).Bare := by
  obtain ⟨_, _, -, -, rfl⟩ := Table.ofRecord_eq_ok.mp h
  exact fun _ => rfl

theorem bare_conditionalOf {r : ConditionalRecord} {c : Conditional} (h : conditionalOf r = .ok c) :
    (Node.conditional c).Bare := by
  obtain ⟨_, -, -, rfl⟩ := conditionalOf_eq_ok.mp h
  exact fun _ => rfl

/-- Two pipelines in the making hold the same nodes, inserted in different orders, and no edges. -/
structure Placed (p p' : Pipeline) : Prop where
  identity : p'.identity = p.identity
  extra : p'.extra = p.extra
  init : p.init = none ∧ p'.init = none
  nodes : ∃ ns ns', p.Packed ns ∧ p'.Packed ns' ∧ ns.Perm ns' ∧ ∀ n ∈ ns, n.Bare

namespace Placed

theorem start (identity : Identity) (extra : Json.Object) :
    Placed { identity, extra } { identity, extra } :=
  ⟨rfl, rfl, ⟨rfl, rfl⟩, [], [], .empty _ _, .empty _ _, .refl _, List.forall_mem_nil _⟩

theorem refl (h : Placed p p') : Placed p p := by
  obtain ⟨ns, -, hp, -, -, hbare⟩ := h.nodes
  exact ⟨rfl, rfl, ⟨h.init.1, h.init.1⟩, ns, ns, hp, hp, .refl _, hbare⟩

theorem trans (h : Placed p p') (h' : Placed p' q) : Placed p q := by
  obtain ⟨ns, ns', hp, hp', hperm, hbare⟩ := h.nodes
  obtain ⟨ns₁, ns'', hp₁, hq, hperm', -⟩ := h'.nodes
  have heq : ns₁ = ns' := hp₁.nodes_eq.symm.trans hp'.nodes_eq
  exact ⟨h'.identity.trans h.identity, h'.extra.trans h.extra, ⟨h.init.1, h'.init.2⟩, ns, ns'', hp,
    hq, hperm.trans (heq ▸ hperm'), hbare⟩

/-- A node can be inserted in both pipelines or in none. -/
theorem insertNode (h : Placed p p') {n : Node} (hn : n.Bare) {r : NodeRef}
    (hins : p.insertNode n = .ok (r, q)) :
    ∃ r' q', p'.insertNode n = .ok (r', q') ∧ Placed q q' := by
  obtain ⟨ns, ns', hp, hp', hperm, hbare⟩ := h.nodes
  have hq := hp.of_insertNode hins
  have hnew : n.name ∉ ns'.map Node.name := by
    have hnames := hq.names
    rw [List.map_append, List.nodup_append] at hnames
    intro hmem
    exact hnames.2.2 n.name ((hperm.map Node.name).mem_iff.mpr hmem) n.name
      (List.mem_singleton.mpr rfl) rfl
  obtain ⟨r', q', hins', hq', hidentity, hextra⟩ := hp'.insert hnew
  refine ⟨r', q', hins', ?_, ?_, ⟨?_, ?_⟩, ns ++ [n], ns' ++ [n], hq, hq', hperm.append_right _, ?_⟩
  · rw [hidentity, h.identity, Pipeline.identity_insertNode hins]
  · rw [hextra, h.extra, Pipeline.extra_insertNode hins]
  · rw [Pipeline.init_insertNode hins, h.init.1]
  · rw [Pipeline.init_insertNode hins', h.init.2]
  · exact List.forall_mem_append.mpr ⟨hbare, List.forall_mem_singleton.mpr hn⟩

/-- Two nodes can be inserted in any order. -/
theorem swap (h : Placed p p) {n m : Node} (hn : n.Bare) (hm : m.Bare) {r s : NodeRef}
    (hins : p.insertNode n = .ok (r, q)) (hins' : q.insertNode m = .ok (s, u)) :
    ∃ s' r' q' u', p.insertNode m = .ok (s', q') ∧ q'.insertNode n = .ok (r', u') ∧
      Placed u u' := by
  obtain ⟨ns, -, hp, -, -, hbare⟩ := h.nodes
  have hq := hp.of_insertNode hins
  have hu := hq.of_insertNode hins'
  -- the names differ in either order, which is all that inserting asks for
  have hnames : ((ns ++ [m] ++ [n]).map Node.name).Nodup := by
    refine (List.Perm.map Node.name ?_).nodup_iff.mp hu.names
    rw [List.append_assoc, List.append_assoc]
    exact List.perm_append_comm.append_left ns
  rw [List.map_append, List.map_append, List.nodup_append, List.nodup_append] at hnames
  have hmname : m.name ∉ ns.map Node.name := fun hmem =>
    hnames.1.2.2 m.name hmem m.name (List.mem_singleton.mpr rfl) rfl
  have hnname : n.name ∉ (ns ++ [m]).map Node.name := fun hmem =>
    hnames.2.2 n.name (List.map_append ▸ hmem) n.name (List.mem_singleton.mpr rfl) rfl
  obtain ⟨s', q', hins₁, hq', -, -⟩ := hp.insert hmname
  obtain ⟨r', u', hins₂, hu', -, -⟩ := hq'.insert hnname
  refine ⟨s', r', q', u', hins₁, hins₂, ?_, ?_, ⟨?_, ?_⟩, _, _, hu, hu', ?_, ?_⟩
  · rw [Pipeline.identity_insertNode hins₂, Pipeline.identity_insertNode hins₁,
      Pipeline.identity_insertNode hins', Pipeline.identity_insertNode hins]
  · rw [Pipeline.extra_insertNode hins₂, Pipeline.extra_insertNode hins₁,
      Pipeline.extra_insertNode hins', Pipeline.extra_insertNode hins]
  · rw [Pipeline.init_insertNode hins', Pipeline.init_insertNode hins, h.init.1]
  · rw [Pipeline.init_insertNode hins₂, Pipeline.init_insertNode hins₁, h.init.1]
  · rw [List.append_assoc, List.append_assoc]
    exact List.perm_append_comm.append_left ns
  · exact List.forall_mem_append.mpr ⟨List.forall_mem_append.mpr
      ⟨hbare, List.forall_mem_singleton.mpr hn⟩, List.forall_mem_singleton.mpr hm⟩

end Placed

/-- A step that inserts a node without edges, in any pipeline that has no node of its name. -/
structure Inserts (I : Pipeline → Except LoadError Pipeline) (name : String) : Prop where
  inserts : ∀ {p q}, I p = .ok q → ∃ n : Node, n.Bare ∧ n.name = name ∧
    (∃ r, p.insertNode n = .ok (r, q)) ∧
      ∀ {p' q' r'}, p'.insertNode n = .ok (r', q') → I p' = .ok q'

theorem inserts_placeTable (g : Program) (r : TableRecord) :
    Inserts (placeTable g · r) r.identity.name where
  inserts h := by
    obtain ⟨t, ref, hactions, ht, hins⟩ := placeTable_eq_ok.mp h
    have hname : (Node.table t).name = r.identity.name :=
      congrArg Identity.name (Table.identity_ofRecord ht)
    exact ⟨.table t, bare_ofRecord ht, hname, ⟨ref, hins⟩,
      fun hins' => placeTable_eq_ok.mpr ⟨t, _, hactions, ht, hins'⟩⟩

theorem inserts_placeConditional (r : ConditionalRecord) :
    Inserts (placeConditional · r) r.identity.name where
  inserts h := by
    obtain ⟨c, ref, hc, hins⟩ := placeConditional_eq_ok.mp h
    have hname : (Node.conditional c).name = r.identity.name := by
      obtain ⟨_, -, -, rfl⟩ := conditionalOf_eq_ok.mp hc
      rfl
    exact ⟨.conditional c, bare_conditionalOf hc, hname, ⟨ref, hins⟩,
      fun hins' => placeConditional_eq_ok.mpr ⟨c, _, hc, hins'⟩⟩

namespace Inserts

variable {α : Type} {f : Pipeline → α → Except LoadError Pipeline} {name : α → String}
variable {records records' : List α}

/-- Records whose nodes have no edges yet may be taken in any order. -/
theorem placed (hf : ∀ a, Inserts (f · a) (name a)) (hperm : records.Perm records')
    (h : Placed p p') (hp : records.foldlM f p = .ok q) :
    ∃ q', records'.foldlM f p' = .ok q' ∧ Placed q q' := by
  refine foldlM_perm (R := Placed) (S := fun _ _ => True) (fun _ => trivial) Placed.refl
    Placed.trans ?_ ?_ hperm (List.pairwise_of_forall fun _ _ => trivial) h hp
  · intro s s' t a hs ha
    obtain ⟨n, hn, -, ⟨r, hins⟩, hany⟩ := (hf a).inserts ha
    obtain ⟨r', t', hins', ht⟩ := hs.insertNode hn hins
    exact ⟨t', hany hins', ht⟩
  · intro s t u a b hs _ ha hb
    obtain ⟨n, hn, -, ⟨r, hins⟩, hany⟩ := (hf a).inserts ha
    obtain ⟨m, hm, -, ⟨r', hins'⟩, hany'⟩ := (hf b).inserts hb
    obtain ⟨_, _, t', u', hins₁, hins₂, hu⟩ := hs.swap hn hm hins hins'
    exact ⟨t', u', hany' hins₁, hany hins₂, hu⟩

/-- The nodes of records are named as the records are. -/
theorem names (hf : ∀ a, Inserts (f · a) (name a)) (hp : p.Packed ns)
    (h : records.foldlM f p = .ok q) :
    ∃ ns', q.Packed ns' ∧ ns'.map Node.name = ns.map Node.name ++ records.map name := by
  induction records generalizing p ns with
  | nil => exact ⟨ns, foldlM_nil_eq_ok.mp h ▸ hp, (List.append_nil _).symm⟩
  | cons a records ih =>
    obtain ⟨u, hu, h⟩ := foldlM_cons_eq_ok.mp h
    obtain ⟨n, -, hname, ⟨r, hins⟩, -⟩ := (hf a).inserts hu
    obtain ⟨ns', hq, hnames⟩ := ih (hp.of_insertNode hins) h
    refine ⟨ns', hq, ?_⟩
    rw [hnames, List.map_append, List.map_singleton, hname, List.append_assoc, List.map_cons]
    rfl

end Inserts

/-! ### Linking nodes in another order -/

/-- A step that links a node sets edges of that node, and depends on that node and on the names
of the others. -/
structure LinksAt (L : Pipeline → Except LoadError Pipeline) (name : String) : Prop where
  modifies : ∀ {p q}, L p = .ok q → ∃ f : Node → Node,
    (∀ n, p.node? name = some n → (f n).name = n.name) ∧ q = p.modifyNode name f ∧
      ∀ p', p'.find? = p.find? → p'.node? name = p.node? name → L p' = .ok (p'.modifyNode name f)

theorem resolve_congr (h : p'.find? = p.find?) : resolve p' = resolve p := by
  unfold resolve
  rw [h]

theorem linkNext_congr (h : p'.find? = p.find?) : linkNext g p' = linkNext g p := by
  unfold linkNext
  rw [resolve_congr h]

theorem identity_linkNext {r : TableRecord} {t t' : Table} {next : String × Json.Value}
    (h : linkNext g p r t next = .ok t') : t'.identity = t.identity := by
  obtain ⟨e, q, -, -, -, hset⟩ := linkNext_ok h
  have houtline := Node.outline_setEdge q e (.table t)
  rw [← hset] at houtline
  exact congrArg (fun x : (Identity × Bool) × List Int => x.1.1) houtline

theorem linksAt_linkTable (g : Program) (r : TableRecord) :
    LinksAt (linkTable g · r) r.identity.name where
  modifies {p q} h := by
    obtain ⟨baseNext, t, t', hbase, ht, hnext, rfl⟩ := linkTable_eq_ok.mp h
    have hnode := Pipeline.node?_of_table? ht
    have hidentity : t'.identity = t.identity := by
      refine foldlM_induction (P := fun u : Table => u.identity = t.identity) ?_ ?_ hnext
      · exact fun _ _ _ _ hu hstep => (identity_linkNext hstep).trans hu
      · rfl
    -- the table is read where its node is, and what it links to by the name alone
    refine ⟨Node.mapTable fun _ => t', fun n hn => ?_, rfl, fun p' hfind hnode' => ?_⟩
    · rw [hnode, Option.some.injEq] at hn
      subst hn
      exact congrArg Identity.name hidentity
    · refine linkTable_eq_ok.mpr ⟨baseNext, t, t', ?_, ?_, ?_, rfl⟩
      · rw [resolve_congr hfind]
        exact hbase
      · rw [Pipeline.table?, hnode', hnode]
        rfl
      · rw [linkNext_congr hfind]
        exact hnext

theorem linksAt_linkConditional (r : ConditionalRecord) :
    LinksAt (linkConditional · r) r.identity.name where
  modifies {p q} h := by
    obtain ⟨trueNext, falseNext, htrue, hfalse, rfl⟩ := linkConditional_eq_ok.mp h
    refine ⟨Node.mapConditional fun c => { c with trueNext, falseNext }, fun n _ => ?_, rfl,
      fun p' hfind _ => ?_⟩
    · cases n <;> rfl
    · rw [← resolve_congr hfind] at htrue hfalse
      exact linkConditional_eq_ok.mpr ⟨trueNext, falseNext, htrue, hfalse, rfl⟩

namespace LinksAt

variable {L L' : Pipeline → Except LoadError Pipeline} {name name' : String}

theorem packed (hL : LinksAt L name) (h : L p = .ok q) (hp : p.Packed ns) :
    ∃ ns', q.Packed ns' := by
  obtain ⟨f, hf, rfl, -⟩ := hL.modifies h
  refine ⟨_, hp.modify fun n hn hname => hf n ?_⟩
  rw [← hname]
  exact hp.node? hn

/-- Links of two nodes may be set in any order. -/
theorem swap (hL : LinksAt L name) (hL' : LinksAt L' name') (hne : name ≠ name')
    (hp : p.Packed ns) (h : L p = .ok q) (h' : L' q = .ok u) :
    ∃ q', L' p = .ok q' ∧ L q' = .ok u := by
  obtain ⟨f, -, rfl, hany⟩ := hL.modifies h
  obtain ⟨f', -, rfl, hany'⟩ := hL'.modifies h'
  have hfind : p.find? = (p.modifyNode name f).find? :=
    funext fun key => (Pipeline.find?_modifyNode name f key).symm
  refine ⟨_, hany' p hfind (hp.node?_modifyNode_of_ne hne f).symm, ?_⟩
  rw [hp.modifyNode_comm hne f f']
  refine hany _ (funext fun key => Pipeline.find?_modifyNode name' f' key) ?_
  exact hp.node?_modifyNode_of_ne hne.symm f'

end LinksAt

/-! ### Linking nodes in other slots -/

section

variable {σ : Equiv.Perm Nat}

theorem resolve_reslot (h : p.Reslotted σ p') {kind : ObjectKind} {referrer : String}
    {target? : Option String} {e : Edge} (he : resolve p kind referrer target? = .ok e) :
    resolve p' kind referrer target? = .ok (reslotEdge σ e) := by
  obtain ⟨rfl, hnone⟩ := resolve_eq_ok.mp he
  refine resolve_eq_ok.mpr ⟨?_, fun hnull => hnone (Option.map_eq_none_iff.mp hnull)⟩
  cases target? with
  | none => rfl
  | some target => exact (h.find target).symm

theorem linkNext_reslot (h : p.Reslotted σ p') {r : TableRecord} {t t' : Table}
    {next : String × Json.Value} (hnext : linkNext g p r t next = .ok t') :
    linkNext g p' r (t.reslot σ) next = .ok (t'.reslot σ) := by
  rw [linkNext] at hnext ⊢
  obtain ⟨e, he, hnext⟩ := bind_eq_ok.mp hnext
  refine bind_eq_ok.mpr ⟨reslotEdge σ e, resolve_reslot h he, ?_⟩
  split at hnext
  case isTrue hhit =>
    rw [if_pos hhit]
    cases hnext
    rfl
  case isFalse hhit =>
    rw [if_neg hhit]
    split at hnext
    case isTrue hmiss =>
      rw [if_pos hmiss]
      cases hnext
      rfl
    case isFalse hmiss =>
      rw [if_neg hmiss]
      split at hnext
      case h_1 id _ =>
        cases hnext
        exact congrArg Except.ok (Table.reslot_setActionNext id e t).symm
      case h_2 => cases hnext

theorem linkTable_reslot {r : TableRecord} (h : p.Reslotted σ p')
    (hlink : linkTable g p r = .ok q) : ∃ q', linkTable g p' r = .ok q' ∧ q.Reslotted σ q' := by
  obtain ⟨baseNext, t, t', hbase, ht, hnext, rfl⟩ := linkTable_eq_ok.mp hlink
  have ht' : p'.table? r.identity.name = some (t.reslot σ) := by
    rw [Pipeline.table?, h.node?, Pipeline.node?_of_table? ht]
    rfl
  obtain ⟨u, hnext', rfl⟩ := foldlM_forall₂ (R := fun u u' : Table => u' = u.reslot σ) (A := Eq)
    (fun hu ha hstep => ⟨_, hu ▸ ha ▸ linkNext_reslot h hstep, rfl⟩) (List.forall₂_refl _) rfl hnext
  refine ⟨_, linkTable_eq_ok.mpr ⟨_, _, _, resolve_reslot h hbase, ht', hnext', rfl⟩, ?_⟩
  refine h.modifyNode _ fun n => ?_
  cases n <;> rfl

theorem linkConditional_reslot {r : ConditionalRecord} (h : p.Reslotted σ p')
    (hlink : linkConditional p r = .ok q) :
    ∃ q', linkConditional p' r = .ok q' ∧ q.Reslotted σ q' := by
  obtain ⟨trueNext, falseNext, htrue, hfalse, rfl⟩ := linkConditional_eq_ok.mp hlink
  refine ⟨_, linkConditional_eq_ok.mpr
    ⟨_, _, resolve_reslot h htrue, resolve_reslot h hfalse, rfl⟩, ?_⟩
  refine h.modifyNode _ fun n => ?_
  cases n <;> rfl

end

/-- A pipeline in the making is another one with its slots permuted. -/
def Linked (p p' : Pipeline) : Prop := (∃ ns, p.Packed ns) ∧ ∃ σ, p.Reslotted σ p'

/-- Links may be set in any order, one record for each node. -/
theorem LinksAt.linked {α : Type} {f : Pipeline → α → Except LoadError Pipeline}
    {name : α → String} {records records' : List α} (hf : ∀ a, LinksAt (f · a) (name a))
    (hreslot : ∀ {σ p p' q a}, p.Reslotted σ p' → f p a = .ok q →
      ∃ q', f p' a = .ok q' ∧ q.Reslotted σ q')
    (hperm : records.Perm records') (hnames : (records.map name).Nodup) (h : Linked p p')
    (hp : records.foldlM f p = .ok q) : ∃ q', records'.foldlM f p' = .ok q' ∧ Linked q q' := by
  -- two links of one node do not exchange, so the names have to differ
  refine foldlM_perm (R := Linked) (S := fun a b => name a ≠ name b) Ne.symm ?_ ?_ ?_ ?_ hperm
    (List.pairwise_map.mp hnames) h hp
  · exact fun hs => ⟨hs.1, _, .refl _⟩
  · rintro s t u ⟨hs, σ, hσ⟩ ⟨-, τ, hτ⟩
    exact ⟨hs, _, hσ.trans hτ⟩
  · rintro s s' t a ⟨⟨ns, hns⟩, σ, hσ⟩ ha
    obtain ⟨t', ht', hτ⟩ := hreslot hσ ha
    exact ⟨t', ht', (hf a).packed ha hns, σ, hτ⟩
  · rintro s t u a b ⟨⟨ns, hns⟩, -⟩ hne ha hb
    obtain ⟨t', ht', hu⟩ := (hf a).swap (hf b) hne hns ha hb
    obtain ⟨ns', hns'⟩ := (hf a).packed ha hns
    exact ⟨t', u, ht', hu, (hf b).packed hb hns', _, .refl u⟩

end Loader

/-! ### Records in another order -/

/-- A record lists the same nodes in another order. -/
structure PipelineRecord.Shuffled (r r' : PipelineRecord) : Prop where
  identity : r'.identity = r.identity
  extra : r'.extra = r.extra
  init : r'.init? = r.init?
  tables : r.tables.Perm r'.tables
  conditionals : r.conditionals.Perm r'.conditionals

namespace Loader

variable {g : Program} {p : Pipeline}

/-- The order of the nodes in a record does not matter, but for their slots. -/
theorem assemble_shuffled {r r' : PipelineRecord} (h : r.Shuffled r')
    (hp : assemble g r = .ok p) : ∃ p', assemble g r' = .ok p' ∧ ∃ σ, p.Reslotted σ p' := by
  obtain ⟨p₁, p₂, p₃, p₄, init, h₁, h₂, h₃, h₄, hinit, rfl⟩ := assemble_eq_ok.mp hp
  obtain ⟨q₁, hq₁, hplaced₁⟩ := Inserts.placed (inserts_placeTable g) h.tables (.start _ _) h₁
  obtain ⟨q₂, hq₂, hplaced₂⟩ :=
    Inserts.placed inserts_placeConditional h.conditionals hplaced₁ h₂
  -- the names of the records are the names of the nodes, which differ
  obtain ⟨ns₁, hns₁, hnames₁⟩ := Inserts.names (inserts_placeTable g) (.empty _ _) h₁
  obtain ⟨ns₂, hns₂, hnames₂⟩ := Inserts.names inserts_placeConditional hns₁ h₂
  have hnodup := hns₂.names
  rw [hnames₂, hnames₁, List.map_nil, List.nil_append, List.nodup_append] at hnodup
  have hlinked : Linked p₂ q₂ := by
    obtain ⟨ns, ns', hns, hns', hperm, hbare⟩ := hplaced₂.nodes
    exact ⟨⟨ns, hns⟩, hns.reslotted hns' hplaced₂.identity hplaced₂.extra hplaced₂.init.1
      hplaced₂.init.2 hbare hperm⟩
  obtain ⟨q₃, hq₃, hlinked₃⟩ :=
    LinksAt.linked (linksAt_linkTable g) linkTable_reslot h.tables hnodup.1 hlinked h₃
  obtain ⟨q₄, hq₄, -, σ, hσ⟩ := LinksAt.linked linksAt_linkConditional linkConditional_reslot
    h.conditionals hnodup.2.1 hlinked₃ h₄
  rw [← h.identity, ← h.extra] at hq₁
  rw [← h.identity, ← h.init] at hinit
  refine ⟨_, assemble_eq_ok.mpr ⟨q₁, q₂, q₃, q₄, _, hq₁, hq₂, hq₃, hq₄,
    resolve_reslot hσ hinit, rfl⟩, σ, ?_⟩
  exact { hσ with init := rfl }

end Loader

end LiveSwitch
