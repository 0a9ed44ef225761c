import LiveSwitch.Proofs.Document.Loading
import LiveSwitch.Proofs.Program.Wiring

/-!
# The history of a loaded document

Loading a pipeline inserts its nodes, tables first, and then wires their edges by the names
that the records give.  The records alone say which events that makes, but for the next nodes
of tables, whose keys name actions of the document.

## Main definitions

* `TableRecord.wires`, `ConditionalRecord.wires`, `PipelineRecord.events` — the events of a
  record.
* `Log.ofRecords`, `Log.ofDocument` — the log of a document.

## Main results

* `Program.follows_ofDocument` — the pipelines of a loaded program agree with the log of its
  document.
-/

namespace LiveSwitch

open Json

/-! ### The events of records -/

/-- The edges of a table by its record. -/
def TableRecord.wires (g : Program) (r : TableRecord) : List GraphEvent :=
  .wire (.port r.identity.name .base) r.baseNext? ::
    r.nextTables.filterMap fun next => (Loader.nextPort? g r.actionIds next.1).map fun q =>
      .wire (.port r.identity.name q) next.2.string?

/-- The edges of a conditional by its record. -/
def ConditionalRecord.wires (r : ConditionalRecord) : List GraphEvent :=
  [.wire (.port r.identity.name (.branch .onTrue)) r.trueNext?,
    .wire (.port r.identity.name (.branch .onFalse)) r.falseNext?]

/-- The event of a node that is loaded, its edges not yet wired. -/
def GraphEvent.bare (identity : Identity) : GraphEvent := .insert identity.name fun _ => none

/-- What happens to the graph of a pipeline that is loaded. -/
def PipelineRecord.events (g : Program) (r : PipelineRecord) : List GraphEvent :=
  (r.tables.map fun t => .bare t.identity) ++ (r.conditionals.map fun c => .bare c.identity) ++
    r.tables.flatMap (·.wires g) ++ r.conditionals.flatMap (·.wires) ++ [.wire .start r.init?]

/-- The log of the pipelines of a document. -/
def Log.ofRecords (g : Program) (records : List PipelineRecord) : Log :=
  records.flatMap fun r => (r.events g).map fun e => (r.identity.name, e)

/-- The log of a document, given the program with its actions. -/
def Log.ofDocument (g : Program) (v : Value) : Log :=
  match v.fields? with
  | some root =>
    match Loader.recordsOf root "pipelines" PipelineRecord.decode with
    | .ok records => ofRecords g records
    | .error _ => []
  | none => []

/-- Only the actions of the program matter for the log. -/
theorem Loader.nextPort?_congr {g g' : Program} (h : g.actions.actions = g'.actions.actions)
    (ids : List Int) (key : String) : nextPort? g ids key = nextPort? g' ids key := by
  unfold nextPort? Program.actionNamed? Program.action? ActionTable.get?
  rw [h]

theorem PipelineRecord.events_congr {g g' : Program} (h : g.actions = g'.actions)
    (r : PipelineRecord) : r.events g = r.events g' := by
  unfold PipelineRecord.events TableRecord.wires
  simp only [Loader.nextPort?_congr (congrArg ActionTable.actions h)]

theorem Log.ofRecords_congr {g g' : Program} (h : g.actions = g'.actions)
    (records : List PipelineRecord) : ofRecords g records = ofRecords g' records := by
  unfold Log.ofRecords
  simp only [PipelineRecord.events_congr h]

/-! ### Folds over the nodes of a record -/

namespace Pipeline

/-- The agreement with a history through a fold, when each step adds its events. -/
theorem agrees_foldlM {σ α ε : Type} {f : σ → α → Except ε σ} (graph : σ → Pipeline)
    (events : α → List GraphEvent)
    (hstep : ∀ a s t, f s a = .ok t → ∀ w, (graph s).Agrees w →
      (graph t).Agrees (w.after (events a)))
    {l : List α} {s t : σ} (h : l.foldlM f s = .ok t) {w : Wiring} (hw : (graph s).Agrees w) :
    (graph t).Agrees (w.after (l.flatMap events)) := by
  induction l generalizing s w with
  | nil =>
    rw [foldlM_nil_eq_ok] at h
    exact h ▸ hw
  | cons a l ih =>
    obtain ⟨u, hu, h⟩ := foldlM_cons_eq_ok.mp h
    have hu' := ih h (hstep a s u hu w hw)
    rw [List.flatMap_cons, Wiring.after, List.foldl_append]
    exact hu'

/-- Two changes of a node in turn. -/
theorem modifyNode_modifyNode (p : Pipeline) (name : String) (f f' : Node → Node) :
    (p.modifyNode name f).modifyNode name f' = p.modifyNode name (f' ∘ f) := by
  cases hr : p.find? name with
  | none =>
    rw [modifyNode_of_none f hr, modifyNode_of_none f' hr,
      modifyNode_of_none _ hr]
  | some r =>
    have hr' : (p.modifyNode name f).find? name = some r := (find?_modifyNode name f name).trans hr
    rw [modifyNode, hr']
    unfold modifyNode
    rw [hr]
    dsimp only
    rw [List.modify_modify_eq]
    congr 2
    funext s
    rw [Function.comp_apply]
    by_cases hg : s.generation = r.generation
    · simp [hg]
    · simp [hg]

theorem Agrees.insertBare {p p' : Pipeline} {w : Wiring} (h : p.Agrees w) {n : Node} {r : NodeRef}
    (hbare : ∀ q e, n.edgeAt? q = some e → e = none) (hins : p.insertNode n = .ok (r, p')) :
    p'.Agrees (w.apply (.bare n.identity)) := by
  obtain ⟨seat, hseat⟩ := h
  exact hseat.insert (fun _ => none) hbare hins

theorem Agrees.wire {p : Pipeline} {w : Wiring} (h : p.Agrees w) (name : String) (q : Port)
    {e : Edge} {target? : Option String} (he : e = target?.bind p.find?) :
    (p.modifyNode name (Node.setEdge q e)).Agrees (w.apply (.wire (.port name q) target?)) := by
  obtain ⟨seat, hseat⟩ := h
  exact ⟨seat, he ▸ hseat.wire name q target?⟩

end Pipeline

/-- A table that is loaded has no edges but a null base edge. -/
theorem Table.edgeAt?_ofRecord {r : TableRecord} {t : Table} (h : ofRecord r = .ok t) {q : Port}
    {e : Edge} (he : (Node.table t).edgeAt? q = some e) : e = none := by
  rw [ofRecord] at h
  simp only [bind_eq_ok, pure_eq_ok] at h
  obtain ⟨keyFields, -, default?, -, rfl⟩ := h
  cases q with
  | base => exact (Option.some.inj he).symm
  | branch | action | hit | miss => cases he

theorem Table.identity_ofRecord {r : TableRecord} {t : Table} (h : ofRecord r = .ok t) :
    t.identity = r.identity := by
  rw [ofRecord] at h
  simp only [bind_eq_ok, pure_eq_ok] at h
  obtain ⟨keyFields, -, default?, -, rfl⟩ := h
  rfl

namespace Loader

variable {l l' : Loader} {p p' : Pipeline} {w : Wiring}

theorem agrees_addTable {r : TableRecord} (h : l.addTable p r = .ok (l', p')) (hw : p.Agrees w) :
    p'.Agrees (w.after [.bare r.identity]) := by
  obtain ⟨t, ref, -, -, ht, hins, -⟩ := addTable_eq_ok.mp h
  have hagrees := hw.insertBare (fun q e he => Table.edgeAt?_ofRecord ht he) hins
  have hidentity : (Node.table t).identity = r.identity := Table.identity_ofRecord ht
  rw [hidentity] at hagrees
  exact hagrees

theorem agrees_addConditional {r : ConditionalRecord} (h : l.addConditional p r = .ok (l', p'))
    (hw : p.Agrees w) : p'.Agrees (w.after [.bare r.identity]) := by
  obtain ⟨c, ref, -, hc, hins, -⟩ := addConditional_eq_ok.mp h
  obtain ⟨condition?, -, -, rfl⟩ := conditionalOf_eq_ok.mp hc
  refine hw.insertBare (fun q e he => ?_) hins
  cases q with
  | branch b => cases b <;> exact (Option.some.inj he).symm
  | action | hit | miss | base => cases he

/-- Setting an edge of a table that is put in its place. -/
theorem setEdge_comp_mapTable {t u : Table} {q : Port} {e : Edge}
    (hq : (Node.table t).takes q = true) (hu : Node.table u = (Node.table t).setEdge q e) :
    Node.setEdge q e ∘ Node.mapTable (fun _ => t) = Node.mapTable fun _ => u := by
  funext n
  cases n with
  | table => exact hu.symm
  | conditional c =>
    cases q with
    | branch => cases hq
    | action | hit | miss | base => rfl

/-- The next nodes of a table are wired one after the other. -/
theorem agrees_linkNext {g : Program} {r : TableRecord} {nexts : Object} {t t' : Table}
    (h : nexts.foldlM (linkNext g p r) t = .ok t')
    (hw : (p.modifyTable r.identity.name fun _ => t).Agrees w) :
    (p.modifyTable r.identity.name fun _ => t').Agrees
      (w.after (nexts.filterMap fun next => (nextPort? g r.actionIds next.1).map fun q =>
        .wire (.port r.identity.name q) next.2.string?)) := by
  induction nexts generalizing t w with
  | nil =>
    rw [foldlM_nil_eq_ok] at h
    exact h ▸ hw
  | cons next nexts ih =>
    obtain ⟨u, hu, h⟩ := foldlM_cons_eq_ok.mp h
    obtain ⟨e, q, he, hq, htakes, hset⟩ := linkNext_ok hu
    rw [resolve_eq_ok] at he
    have hwire := hw.wire r.identity.name q
      (he.1.trans (congrArg _ (funext (Pipeline.find?_modifyNode _ _)).symm))
    rw [Pipeline.modifyTable, Pipeline.modifyNode_modifyNode,
      setEdge_comp_mapTable htakes hset] at hwire
    rw [List.filterMap_cons_some (by rw [hq]; rfl)]
    exact ih h hwire

theorem agrees_linkTable {g : Program} {r : TableRecord} (h : linkTable g p r = .ok p')
    (hw : p.Agrees w) : p'.Agrees (w.after (r.wires g)) := by
  obtain ⟨baseNext, t, t', hbase, ht, hnext, rfl⟩ := linkTable_eq_ok.mp h
  rw [resolve_eq_ok] at hbase
  obtain ⟨seat, hseat⟩ := hw
  -- putting the table in its own place changes nothing; then its base edge is wired
  have hself : (p.modifyTable r.identity.name fun _ => t).Agrees w := by
    refine ⟨seat, hseat.rewrite fun n hn => ?_⟩
    have hnt := Pipeline.node?_of_table? ht
    rw [hn] at hnt
    cases hnt
    exact ⟨rfl, fun _ => rfl⟩
  have hwire := hself.wire r.identity.name .base
    (hbase.1.trans (congrArg _ (funext (Pipeline.find?_modifyNode _ _)).symm))
  rw [Pipeline.modifyTable, Pipeline.modifyNode_modifyNode, setEdge_comp_mapTable rfl rfl] at hwire
  exact agrees_linkNext hnext hwire

theorem agrees_linkConditional {r : ConditionalRecord} (h : linkConditional p r = .ok p')
    (hw : p.Agrees w) : p'.Agrees (w.after r.wires) := by
  obtain ⟨trueNext, falseNext, ht, hf, rfl⟩ := linkConditional_eq_ok.mp h
  rw [resolve_eq_ok] at ht hf
  have htrue := hw.wire r.identity.name (.branch .onTrue) ht.1
  have hfalse := htrue.wire r.identity.name (.branch .onFalse)
    (hf.1.trans (congrArg _ (funext (Pipeline.find?_modifyNode _ _)).symm))
  rw [Pipeline.modifyNode_modifyNode] at hfalse
  have hboth : Node.setEdge (.branch .onFalse) falseNext ∘ Node.setEdge (.branch .onTrue) trueNext =
      Node.mapConditional fun c => { c with trueNext, falseNext } := by
    funext n
    cases n <;> rfl
  rw [hboth] at hfalse
  exact hfalse

/-! ### Pipelines -/

/-- A pipeline that is loaded agrees with the events of its record. -/
theorem agrees_addPipeline {r : PipelineRecord} (h : l.addPipeline r = .ok l') :
    ∃ p : Pipeline, p.Agrees (Wiring.after {} (r.events l.program)) ∧ p.name = r.identity.name ∧
      l.program.pipelines.insert p = .ok l'.program.pipelines ∧
      l'.program.actions = l.program.actions := by
  obtain ⟨l₁, p₁, l₂, p₂, p₃, p₄, init, pipelines, h₁, h₂, h₃, h₄, hinit, hins, rfl⟩ :=
    addPipeline_eq_ok.mp h
  obtain ⟨-, hprogram, hidentity, -⟩ := addNodes_keep h₁ h₂
  have hpipelines : l₂.program.pipelines = l.program.pipelines := by rw [hprogram]
  have hactions : l₂.program.actions = l.program.actions := by rw [hprogram]
  have hempty : Pipeline.Agrees { identity := r.identity, extra := r.extra } {} :=
    ⟨fun _ => ⟨0, 0⟩, Pipeline.Follows.empty r.identity r.extra _⟩
  -- the four folds, each adding its events
  have hw₁ := Pipeline.agrees_foldlM Prod.snd (fun t => [.bare t.identity])
    (fun t s s' hstep w hw => agrees_addTable hstep hw) h₁ hempty
  have hw₂ := Pipeline.agrees_foldlM Prod.snd (fun c => [.bare c.identity])
    (fun c s s' hstep w hw => agrees_addConditional hstep hw) h₂ hw₁
  have hw₃ := Pipeline.agrees_foldlM id (TableRecord.wires l₂.program)
    (fun t p p' hstep w hw => agrees_linkTable hstep hw) h₃ hw₂
  have hw₄ := Pipeline.agrees_foldlM id ConditionalRecord.wires
    (fun c p p' hstep w hw => agrees_linkConditional hstep hw) h₄ hw₃
  obtain ⟨seat, hseat⟩ := hw₄
  have hw₅ := hseat.start r.init?
  rw [resolve_eq_ok] at hinit
  refine ⟨{ p₄ with init }, ⟨seat, ?_⟩, ?_, by rw [← hpipelines]; exact hins, hactions⟩
  · rw [r.events_congr hactions.symm, PipelineRecord.events]
    simp only [Wiring.after, List.foldl_append, List.map_eq_flatMap]
    rw [hinit.1]
    exact hw₅
  · have hid := (linkNodes_keep h₃ h₄).1.trans hidentity
    exact congrArg Identity.name hid

/-- The log grows by the events of one pipeline, whose name is new to it. -/
theorem follows_addPipeline {r : PipelineRecord} (h : l.addPipeline r = .ok l') {log : Log}
    (hl : l.program.Follows log)
    (hnames : ∀ x ∈ log, ∃ p ∈ l.program.pipelines.objects, p.name = x.1) :
    l'.program.Follows (log ++ Log.ofRecords l.program [r]) ∧
      ∀ x ∈ log ++ Log.ofRecords l.program [r],
        ∃ p ∈ l'.program.pipelines.objects, p.name = x.1 := by
  obtain ⟨p, hp, hname, hins, -⟩ := agrees_addPipeline h
  obtain ⟨hfree, -, heq⟩ := ObjectMap.insert_eq_ok.mp hins
  have hlog : Log.ofRecords l.program [r] =
      (r.events l.program).map fun e => (r.identity.name, e) := by
    rw [Log.ofRecords, List.flatMap_singleton]
  have hmem : ∀ q, q ∈ l'.program.pipelines.objects ↔ q = p ∨ q ∈ l.program.pipelines.objects := by
    intro q
    rw [heq]
    exact ObjectMap.mem_place
  have hnew : ∀ q ∈ l.program.pipelines.objects, q.name ≠ r.identity.name := by
    intro q hq
    have hne := ObjectMap.get?_eq_none_iff.mp (ObjectMap.contains_eq_false.mp hfree).2 q hq
    rwa [show nameOf p = r.identity.name from hname] at hne
  constructor
  · intro q hq
    rcases (hmem q).mp hq with rfl | hq
    · -- the log has no events yet for a name that is new
      have hnil : log.eventsOf r.identity.name = [] := by
        refine Log.eventsOf_eq_nil fun x hx he => ?_
        obtain ⟨q', hq', hqname⟩ := hnames x hx
        exact hnew q' hq' (hqname.trans he)
      rw [hname, hlog, Log.wiring_append_self, Log.wiring, hnil]
      exact hp
    · rw [Log.wiring_append_of_ne]
      · exact hl q hq
      · intro x hx
        rw [hlog] at hx
        obtain ⟨e, -, rfl⟩ := List.mem_map.mp hx
        exact Ne.symm (hnew q hq)
  · intro x hx
    rcases List.mem_append.mp hx with hx | hx
    · obtain ⟨q, hq, hqname⟩ := hnames x hx
      exact ⟨q, (hmem q).mpr (Or.inr hq), hqname⟩
    · rw [hlog] at hx
      obtain ⟨e, -, rfl⟩ := List.mem_map.mp hx
      exact ⟨p, (hmem p).mpr (Or.inl rfl), hname⟩

theorem follows_addPipelines {records : List PipelineRecord}
    (h : records.foldlM addPipeline l = .ok l') {log : Log} (hl : l.program.Follows log)
    (hnames : ∀ x ∈ log, ∃ p ∈ l.program.pipelines.objects, p.name = x.1) :
    l'.program.Follows (log ++ Log.ofRecords l.program records) ∧
      l'.program.actions = l.program.actions := by
  induction records generalizing l log with
  | nil =>
    rw [foldlM_nil_eq_ok] at h
    subst h
    rw [Log.ofRecords, List.flatMap_nil, List.append_nil]
    exact ⟨hl, rfl⟩
  | cons r records ih =>
    obtain ⟨l₁, hr, h⟩ := foldlM_cons_eq_ok.mp h
    obtain ⟨-, -, -, -, hactions⟩ := agrees_addPipeline hr
    obtain ⟨hl₁, hnames₁⟩ := follows_addPipeline hr hl hnames
    obtain ⟨hfollows, hactions'⟩ := ih h hl₁ hnames₁
    have hsplit : Log.ofRecords l.program (r :: records) =
        Log.ofRecords l.program [r] ++ Log.ofRecords l₁.program records := by
      rw [Log.ofRecords_congr hactions, Log.ofRecords, Log.ofRecords, Log.ofRecords,
        ← List.flatMap_append, List.singleton_append]
    rw [hsplit, ← List.append_assoc]
    exact ⟨hfollows, hactions'.trans hactions⟩

end Loader

open Loader in
/-- The pipelines of a loaded program agree with the log of its document. -/
theorem Program.follows_ofDocument {s s' : Store} {v : Value} {g : Program}
    (h : ofDocument s v = .ok (g, s')) : g.Follows (Log.ofDocument g v) := by
  obtain ⟨root, pipelines, l, l', hroot, hp, hnone, hadd, rfl⟩ := addPipelines_of_ofDocument h
  have hempty : l.program.Follows [] := by
    intro p hp
    rw [hnone] at hp
    cases hp
  obtain ⟨hfollows, hactions⟩ := follows_addPipelines hadd hempty fun x hx => by cases hx
  have hlog : Log.ofDocument { l'.program with extra := root.without sectionKeys } v =
      Log.ofRecords l.program pipelines := by
    rw [Log.ofDocument, hroot]
    dsimp only
    rw [hp]
    exact Log.ofRecords_congr hactions pipelines
  rw [hlog]
  exact hfollows.congr rfl

end LiveSwitch
