import LiveSwitch.Document.Load
import LiveSwitch.Proofs.Document.Fields
import LiveSwitch.Proofs.Outcome
import LiveSwitch.Proofs.Pipeline.Ports
import LiveSwitch.Proofs.Pipeline.Slots
import Mathlib.Logic.Relation

/-!
# What loading a document does

The loader is opened here, function by function: what a record adds to the program in the
making when it is accepted, and which folds a document as a whole goes through.

## Main definitions

* `Loader.nextPort?` — the port of a table that a key of its next nodes means.
* `Loader.Adds` — a record of a document is added.

## Main results

* `Loader.addArray_eq_ok`, `addCalculation_eq_ok`, `addAction_eq_ok`, `addPipeline_eq_ok` — when
  a record is accepted and what it adds.
* `Loader.addTable_eq_ok`, `addConditional_eq_ok`, `linkTable_eq_ok`, `linkConditional_eq_ok` —
  the steps by which a pipeline is put together.
* `Loader.addNodes_induction` — what every node preserves, all nodes of a pipeline preserve.
* `Program.ofDocument_eq_ok`, `Program.addPipelines_of_ofDocument` — the folds of a document.
* `Program.adds_ofDocument` — a document is loaded by adding one record after the other.
-/

namespace LiveSwitch

open Json

namespace Loader

variable {g : Program} {l l' : Loader} {p p' : Pipeline}

/-! ### Register arrays, calculations, actions -/

theorem addArray_eq_ok {r : ArrayRecord} : l.addArray r = .ok l' ↔
    ∃ arrays, Register.validSize r.size ∧ Register.validBitwidth r.bitwidth ∧
      l.program.arrays.insert
        (RegisterArray.zeros r.identity r.size r.bitwidth r.extra l.store).1 = .ok arrays ∧
      l' = { l with
        program := { l.program with arrays }
        store := l.store.add (.zeros r.size r.bitwidth) } := by
  rw [addArray]
  constructor
  · intro h
    obtain ⟨hsize, h⟩ := unless_eq_ok.mp h
    obtain ⟨hwidth, h⟩ := unless_eq_ok.mp h
    simp only [bind_eq_ok, mapError_eq_ok, pure_eq_ok] at h
    obtain ⟨arrays, harrays, rfl⟩ := h
    exact ⟨arrays, hsize, hwidth, harrays, rfl⟩
  · rintro ⟨arrays, hsize, hwidth, harrays, rfl⟩
    refine unless_eq_ok.mpr ⟨hsize, unless_eq_ok.mpr ⟨hwidth, ?_⟩⟩
    simp only [bind_eq_ok, mapError_eq_ok, pure_eq_ok]
    exact ⟨arrays, harrays, rfl⟩

theorem addCalculation_eq_ok {r : CalculationRecord} : l.addCalculation r = .ok l' ↔
    ∃ c calculations, Calculation.ofRecord l.program.layout r = .ok c ∧
      l.program.calculations.insert c = .ok calculations ∧
      l' = { l with program := { l.program with calculations } } := by
  rw [addCalculation]
  simp only [bind_eq_ok, mapError_eq_ok, pure_eq_ok]
  constructor
  · rintro ⟨c, hc, calculations, hcalculations, rfl⟩
    exact ⟨c, calculations, hc, hcalculations, rfl⟩
  · rintro ⟨c, calculations, hc, hcalculations, rfl⟩
    exact ⟨c, hc, calculations, hcalculations, rfl⟩

theorem addAction_eq_ok {r : ActionRecord} : l.addAction r = .ok l' ↔
    ∃ a actions, Action.ofRecord r = .ok a ∧ l.program.actions.insert a = .ok actions ∧
      l' = { l with program := { l.program with actions } } := by
  rw [addAction]
  simp only [bind_eq_ok, pure_eq_ok]
  constructor
  · rintro ⟨a, ha, actions, hactions, rfl⟩
    exact ⟨a, actions, ha, hactions, rfl⟩
  · rintro ⟨a, actions, ha, hactions, rfl⟩
    exact ⟨a, ha, actions, hactions, rfl⟩

/-! ### Nodes -/

theorem addNode_eq_ok {n : Node} : addNode p n = .ok p' ↔ ∃ r, p.insertNode n = .ok (r, p') := by
  rw [addNode]
  cases p.insertNode n with
  | ok x => simp [Prod.ext_iff]
  | error e => simp

theorem checkActions_eq_ok {r : TableRecord} :
    checkActions g r = .ok () ↔ ∀ id ∈ r.actionIds, (g.action? id).isSome := by
  rw [checkActions]
  generalize r.actionIds = ids
  induction ids with
  | nil => simp [pure, Except.pure]
  | cons id ids ih =>
    rw [List.forM, bind_eq_ok, List.forall_mem_cons, ← ih]
    split
    case isTrue hid => simp [hid]
    case isFalse hid => simp [hid]

theorem addTable_eq_ok {r : TableRecord} : l.addTable p r = .ok (l', p') ↔
    ∃ t ref, r.identity.id ∉ l.tableIds ∧ (∀ id ∈ r.actionIds, (l.program.action? id).isSome) ∧
      Table.ofRecord r = .ok t ∧ p.insertNode (.table t) = .ok (ref, p') ∧
      l' = { l with
        program := { l.program with tableIds := l.program.tableIds.observe r.identity.id }
        tableIds := r.identity.id :: l.tableIds } := by
  rw [addTable]
  simp only [bind_eq_ok, guard_eq_ok, pure_eq_ok, List.contains_iff_mem, addNode_eq_ok,
    ← checkActions_eq_ok]
  constructor
  · rintro ⟨hid, _, hactions, t, ht, q, ⟨ref, href⟩, heq⟩
    cases heq
    exact ⟨t, ref, hid, hactions, ht, href, rfl⟩
  · rintro ⟨t, ref, hid, hactions, ht, href, rfl⟩
    exact ⟨hid, (), hactions, t, ht, p', ⟨ref, href⟩, rfl⟩

/-- A record is accepted when its condition can be read, or is absent in a flex node. -/
theorem conditionalOf_eq_ok {r : ConditionalRecord} {c : Conditional} :
    conditionalOf r = .ok c ↔ ∃ condition?, r.expression?.mapM Condition.decode = .ok condition? ∧
      (condition? = none → r.flex = true) ∧
      c = { identity := r.identity, condition?, flex := r.flex, extra := r.extra } := by
  rw [conditionalOf]
  simp only [bind_eq_ok, guard_eq_ok, pure_eq_ok]
  constructor
  · rintro ⟨condition?, hcondition, hflex, rfl⟩
    refine ⟨condition?, hcondition, ?_, rfl⟩
    rintro rfl
    simpa using hflex
  · rintro ⟨condition?, hcondition, hflex, rfl⟩
    refine ⟨condition?, hcondition, ?_, rfl⟩
    cases condition? with
    | none => simp [hflex rfl]
    | some d => simp

theorem addConditional_eq_ok {r : ConditionalRecord} :
    l.addConditional p r = .ok (l', p') ↔ ∃ c ref, r.identity.id ∉ l.conditionalIds ∧
      conditionalOf r = .ok c ∧ p.insertNode (.conditional c) = .ok (ref, p') ∧
      l' = { l with
        program := { l.program with
          conditionalIds := l.program.conditionalIds.observe r.identity.id }
        conditionalIds := r.identity.id :: l.conditionalIds } := by
  rw [addConditional]
  simp only [bind_eq_ok, guard_eq_ok, pure_eq_ok, List.contains_iff_mem, addNode_eq_ok]
  constructor
  · rintro ⟨hid, c, hc, q, ⟨ref, href⟩, heq⟩
    cases heq
    exact ⟨c, ref, hid, hc, href, rfl⟩
  · rintro ⟨c, ref, hid, hc, href, rfl⟩
    exact ⟨hid, c, hc, p', ⟨ref, href⟩, rfl⟩

/-! ### Edges -/

/-- The edge to a name is the reference of the node of that name. -/
theorem resolve_eq_ok {kind : ObjectKind} {referrer : String} {target? : Option String}
    {e : Edge} : resolve p kind referrer target? = .ok e ↔
      e = target?.bind p.find? ∧ (e = none → target? = none) := by
  cases target? with
  | none => simp [resolve, eq_comm]
  | some t =>
    rw [resolve, Option.bind_some]
    cases p.find? t with
    | none => simp
    | some r => simp +contextual [eq_comm]

/-- The port of a table that a key of its next nodes means. -/
def nextPort? (g : Program) (actionIds : List Int) (key : String) : Option Port :=
  if key = hitKey then some .hit
  else if key = missKey then some .miss
  else (g.actionNamed? actionIds key).map .action

theorem linkNext_ok {r : TableRecord} {t t' : Table} {next : String × Value}
    (h : linkNext g p r t next = .ok t') :
    ∃ e q, resolve p .table r.identity.name next.2.string? = .ok e ∧
      nextPort? g r.actionIds next.1 = some q ∧ (Node.table t).takes q = true ∧
      Node.table t' = (Node.table t).setEdge q e := by
  rw [linkNext] at h
  obtain ⟨e, he, h⟩ := bind_eq_ok.mp h
  split at h
  case isTrue hhit =>
    cases h
    exact ⟨e, .hit, he, if_pos hhit, rfl, rfl⟩
  case isFalse hhit =>
    split at h
    case isTrue hmiss =>
      cases h
      exact ⟨e, .miss, he, by rw [nextPort?, if_neg hhit, if_pos hmiss], rfl, rfl⟩
    case isFalse hmiss =>
      split at h
      case h_1 id hid =>
        cases h
        exact ⟨e, .action id, he, by rw [nextPort?, if_neg hhit, if_neg hmiss, hid]; rfl, rfl, rfl⟩
      case h_2 => cases h

theorem linkTable_eq_ok {r : TableRecord} : linkTable g p r = .ok p' ↔
    ∃ baseNext t t', resolve p .table r.identity.name r.baseNext? = .ok baseNext ∧
      p.table? r.identity.name = some t ∧
      r.nextTables.foldlM (linkNext g p r) { t with baseNext } = .ok t' ∧
      p' = p.modifyTable r.identity.name fun _ => t' := by
  rw [linkTable, bind_eq_ok]
  constructor
  · rintro ⟨baseNext, hbase, h⟩
    split at h
    case h_1 => cases h
    case h_2 t ht =>
      simp only [bind_eq_ok, pure_eq_ok] at h
      obtain ⟨t', ht', rfl⟩ := h
      exact ⟨baseNext, t, t', hbase, ht, ht', rfl⟩
  · rintro ⟨baseNext, t, t', hbase, ht, ht', rfl⟩
    refine ⟨baseNext, hbase, ?_⟩
    rw [ht]
    exact bind_eq_ok.mpr ⟨t', ht', rfl⟩

theorem linkConditional_eq_ok {r : ConditionalRecord} : linkConditional p r = .ok p' ↔
    ∃ trueNext falseNext, resolve p .conditional r.identity.name r.trueNext? = .ok trueNext ∧
      resolve p .conditional r.identity.name r.falseNext? = .ok falseNext ∧
      p' = p.modifyConditional r.identity.name fun c => { c with trueNext, falseNext } := by
  rw [linkConditional]
  simp only [bind_eq_ok, pure_eq_ok]
  constructor
  · rintro ⟨trueNext, ht, falseNext, hf, rfl⟩
    exact ⟨trueNext, falseNext, ht, hf, rfl⟩
  · rintro ⟨trueNext, falseNext, ht, hf, rfl⟩
    exact ⟨trueNext, ht, falseNext, hf, rfl⟩

/-! ### Pipelines and documents -/

theorem addPipeline_eq_ok {r : PipelineRecord} : l.addPipeline r = .ok l' ↔
    ∃ l₁ p₁ l₂ p₂ p₃ p₄ init pipelines,
      r.tables.foldlM (fun (l, p) t => addTable l p t)
        (l, { identity := r.identity, extra := r.extra }) = .ok (l₁, p₁) ∧
      r.conditionals.foldlM (fun (l, p) c => addConditional l p c) (l₁, p₁) = .ok (l₂, p₂) ∧
      r.tables.foldlM (linkTable l₂.program) p₂ = .ok p₃ ∧
      r.conditionals.foldlM linkConditional p₃ = .ok p₄ ∧
      resolve p₄ .pipeline r.identity.name r.init? = .ok init ∧
      l₂.program.pipelines.insert { p₄ with init } = .ok pipelines ∧
      l' = { l₂ with program := { l₂.program with pipelines } } := by
  rw [addPipeline]
  simp only [bind_eq_ok, mapError_eq_ok, pure_eq_ok]
  constructor
  · rintro ⟨⟨l₁, p₁⟩, h₁, ⟨l₂, p₂⟩, h₂, p₃, h₃, p₄, h₄, init, hinit, pipelines, hp, rfl⟩
    exact ⟨l₁, p₁, l₂, p₂, p₃, p₄, init, pipelines, h₁, h₂, h₃, h₄, hinit, hp, rfl⟩
  · rintro ⟨l₁, p₁, l₂, p₂, p₃, p₄, init, pipelines, h₁, h₂, h₃, h₄, hinit, hp, rfl⟩
    exact ⟨(l₁, p₁), h₁, (l₂, p₂), h₂, p₃, h₃, p₄, h₄, init, hinit, pipelines, hp, rfl⟩

/-- What the addition of every node preserves, the addition of all nodes of a pipeline
preserves. -/
theorem addNodes_induction {P : Loader → Pipeline → Prop} {r : PipelineRecord} {l₁ l₂ : Loader}
    {p₁ p₂ : Pipeline}
    (h₁ : r.tables.foldlM (fun (l, p) t => addTable l p t) (l, p) = .ok (l₁, p₁))
    (h₂ : r.conditionals.foldlM (fun (l, p) c => addConditional l p c) (l₁, p₁) = .ok (l₂, p₂))
    (htable : ∀ {t l p l' p'}, P l p → addTable l p t = .ok (l', p') → P l' p')
    (hconditional : ∀ {c l p l' p'}, P l p → addConditional l p c = .ok (l', p') → P l' p')
    (h : P l p) : P l₂ p₂ := by
  have htables : P l₁ p₁ := foldlM_induction (P := fun x : Loader × Pipeline => P x.1 x.2)
    (fun _ _ _ _ hP hstep => htable hP hstep) h h₁
  exact foldlM_induction (P := fun x : Loader × Pipeline => P x.1 x.2)
    (fun _ _ _ _ hP hstep => hconditional hP hstep) htables h₂

/-- Nodes that are added take ids, and change nothing else but their pipeline. -/
theorem addNodes_keep {r : PipelineRecord} {l₁ l₂ : Loader} {p₁ p₂ : Pipeline}
    (h₁ : r.tables.foldlM (fun (l, p) t => addTable l p t) (l, p) = .ok (l₁, p₁))
    (h₂ : r.conditionals.foldlM (fun (l, p) c => addConditional l p c) (l₁, p₁) = .ok (l₂, p₂)) :
    l₂.store = l.store ∧
      l₂.program = { l.program with
        tableIds := l₂.program.tableIds, conditionalIds := l₂.program.conditionalIds } ∧
      p₂.identity = p.identity ∧ p₂.extra = p.extra := by
  refine addNodes_induction (P := fun m q => m.store = l.store ∧
    m.program = { l.program with
      tableIds := m.program.tableIds, conditionalIds := m.program.conditionalIds } ∧
    q.identity = p.identity ∧ q.extra = p.extra) h₁ h₂ ?_ ?_ ⟨rfl, rfl, rfl, rfl⟩
  · rintro t m q m' q' ⟨hstore, hprogram, hidentity, hextra⟩ hstep
    obtain ⟨_, _, -, -, -, hins, rfl⟩ := addTable_eq_ok.mp hstep
    refine ⟨hstore, ?_, (Pipeline.identity_insertNode hins).trans hidentity,
      (Pipeline.extra_insertNode hins).trans hextra⟩
    dsimp only at hprogram ⊢
    rw [hprogram]
  · rintro c m q m' q' ⟨hstore, hprogram, hidentity, hextra⟩ hstep
    obtain ⟨_, _, -, -, hins, rfl⟩ := addConditional_eq_ok.mp hstep
    refine ⟨hstore, ?_, (Pipeline.identity_insertNode hins).trans hidentity,
      (Pipeline.extra_insertNode hins).trans hextra⟩
    dsimp only at hprogram ⊢
    rw [hprogram]

theorem linkNodes_keep {r : PipelineRecord} {p₃ p₄ : Pipeline}
    (h₃ : r.tables.foldlM (linkTable g) p = .ok p₃)
    (h₄ : r.conditionals.foldlM linkConditional p₃ = .ok p₄) :
    p₄.identity = p.identity ∧ p₄.extra = p.extra := by
  have htables : p₃.identity = p.identity ∧ p₃.extra = p.extra := by
    refine foldlM_induction (P := fun q : Pipeline =>
      q.identity = p.identity ∧ q.extra = p.extra) ?_ ⟨rfl, rfl⟩ h₃
    rintro t - q q' ⟨hi, hx⟩ hstep
    obtain ⟨_, _, _, -, -, -, rfl⟩ := linkTable_eq_ok.mp hstep
    exact ⟨(Pipeline.identity_modifyNode _ _).trans hi, (Pipeline.extra_modifyNode _ _).trans hx⟩
  refine foldlM_induction (P := fun q : Pipeline =>
    q.identity = p.identity ∧ q.extra = p.extra) ?_ htables h₄
  rintro c - q q' ⟨hi, hx⟩ hstep
  obtain ⟨_, _, -, -, rfl⟩ := linkConditional_eq_ok.mp hstep
  exact ⟨(Pipeline.identity_modifyNode _ _).trans hi, (Pipeline.extra_modifyNode _ _).trans hx⟩

/-- A pipeline that is added joins the others, and its nodes take ids. -/
theorem addPipeline_keep {r : PipelineRecord} (h : l.addPipeline r = .ok l') :
    l'.store = l.store ∧
      l'.program = { l.program with
        pipelines := l'.program.pipelines
        tableIds := l'.program.tableIds
        conditionalIds := l'.program.conditionalIds } := by
  obtain ⟨_, _, l₂, _, _, _, _, pipelines, h₁, h₂, -, -, -, -, rfl⟩ := addPipeline_eq_ok.mp h
  obtain ⟨hstore, hprogram, -⟩ := addNodes_keep h₁ h₂
  exact ⟨hstore, congrArg (fun g : Program => { g with pipelines }) hprogram⟩

/-- A record of a document is added, one that was read from some value. -/
inductive Adds : Loader → Loader → Prop
  | array {l l' : Loader} {v : Value} {r : ArrayRecord} (hv : ArrayRecord.decode v = some r)
    (h : l.addArray r = .ok l') : Adds l l'
  | calculation {l l' : Loader} {v : Value} {r : CalculationRecord}
    (hv : CalculationRecord.decode v = some r) (h : l.addCalculation r = .ok l') : Adds l l'
  | action {l l' : Loader} {v : Value} {r : ActionRecord} (hv : ActionRecord.decode v = some r)
    (h : l.addAction r = .ok l') : Adds l l'
  | pipeline {l l' : Loader} {v : Value} {r : PipelineRecord}
    (hv : PipelineRecord.decode v = some r) (h : l.addPipeline r = .ok l') : Adds l l'

theorem recordsOf_array {α : Type} {root : Object} {key : String} {d : Decoder α}
    {items : List Value} {records : List α} (hroot : root.get? key = some (.array items))
    (h : Decode.listOf d (.array items) = some records) : recordsOf root key d = .ok records := by
  simp only [recordsOf, hroot, h]

theorem exists_of_recordsOf {α : Type} {root : Object} {key : String} {d : Decoder α}
    {records : List α} (h : recordsOf root key d = .ok records) {r : α} (hr : r ∈ records) :
    ∃ v, d v = some r := by
  unfold recordsOf at h
  split at h
  case h_1 | h_2 =>
    cases h
    cases hr
  case h_3 =>
    split at h
    case h_1 heq =>
      cases h
      exact Decode.exists_of_listOf heq hr
    case h_2 => cases h

/-- The records of a section are added one after the other. -/
theorem adds_foldlM {α : Type} {root : Object} {key : String} {d : Decoder α} {records : List α}
    {add : Loader → α → Except LoadError Loader}
    (hadd : ∀ {v r l l'}, d v = some r → add l r = .ok l' → Adds l l')
    (hrecords : recordsOf root key d = .ok records) (h : records.foldlM add l = .ok l') :
    Relation.ReflTransGen Adds l l' := by
  refine foldlM_induction ?_ .refl h
  intro r hr m m' hm hstep
  obtain ⟨v, hv⟩ := exists_of_recordsOf hrecords hr
  exact hm.tail (hadd hv hstep)

end Loader

open Loader in
/-- A document is loaded by four folds, one for each of its sections. -/
theorem Program.ofDocument_eq_ok {s s' : Store} {v : Value} {g : Program} :
    ofDocument s v = .ok (g, s') ↔ ∃ root layout arrays calculations actions pipelines l₁ l₂ l₃ l₄,
      v.fields? = some root ∧
      Layout.ofSections (root.get? "header_types") (root.get? "headers") = .ok layout ∧
      recordsOf root "register_arrays" ArrayRecord.decode = .ok arrays ∧
      recordsOf root "calculations" CalculationRecord.decode = .ok calculations ∧
      recordsOf root "actions" ActionRecord.decode = .ok actions ∧
      recordsOf root "pipelines" PipelineRecord.decode = .ok pipelines ∧
      arrays.foldlM addArray { program := { layout }, store := s } = .ok l₁ ∧
      calculations.foldlM addCalculation l₁ = .ok l₂ ∧
      actions.foldlM addAction l₂ = .ok l₃ ∧
      pipelines.foldlM addPipeline l₃ = .ok l₄ ∧
      g = { l₄.program with extra := root.without sectionKeys } ∧ s' = l₄.store := by
  rw [ofDocument]
  cases v.fields? with
  | none => simp
  | some root =>
    simp only [bind_eq_ok, pure_eq_ok]
    constructor
    · rintro ⟨layout, hlayout, arrays, ha, l₁, h₁, calculations, hc, l₂, h₂, actions, hact, l₃, h₃,
        pipelines, hp, l₄, h₄, heq⟩
      cases heq
      exact ⟨root, layout, arrays, calculations, actions, pipelines, l₁, l₂, l₃, l₄, rfl,
        hlayout, ha, hc, hact, hp, h₁, h₂, h₃, h₄, rfl, rfl⟩
    · rintro ⟨_, layout, arrays, calculations, actions, pipelines, l₁, l₂, l₃, l₄, hroot,
        hlayout, ha, hc, hact, hp, h₁, h₂, h₃, h₄, rfl, rfl⟩
      cases hroot
      exact ⟨layout, hlayout, arrays, ha, l₁, h₁, calculations, hc, l₂, h₂, actions, hact, l₃, h₃,
        pipelines, hp, l₄, h₄, rfl⟩

open Loader in
/-- The pipelines of a document are added last, to a program without any. -/
theorem Program.addPipelines_of_ofDocument {s s' : Store} {v : Value} {g : Program}
    (h : ofDocument s v = .ok (g, s')) : ∃ root pipelines l l',
      v.fields? = some root ∧
      recordsOf root "pipelines" PipelineRecord.decode = .ok pipelines ∧
      l.program.pipelines.objects = [] ∧ pipelines.foldlM addPipeline l = .ok l' ∧
      g = { l'.program with extra := root.without sectionKeys } := by
  obtain ⟨root, layout, arrays, calculations, actions, pipelines, l₁, l₂, l₃, l₄, hroot, -, -, -,
    -, hp, h₁, h₂, h₃, h₄, rfl, -⟩ := ofDocument_eq_ok.mp h
  -- the other sections add no pipelines
  have hnone₁ : l₁.program.pipelines.objects = [] := by
    refine foldlM_induction (P := fun l => l.program.pipelines.objects = []) ?_ rfl h₁
    intro r _ l l' hl hstep
    obtain ⟨_, -, -, -, rfl⟩ := addArray_eq_ok.mp hstep
    exact hl
  have hnone₂ : l₂.program.pipelines.objects = [] := by
    refine foldlM_induction (P := fun l => l.program.pipelines.objects = []) ?_ hnone₁ h₂
    intro r _ l l' hl hstep
    obtain ⟨_, _, -, -, rfl⟩ := addCalculation_eq_ok.mp hstep
    exact hl
  have hnone₃ : l₃.program.pipelines.objects = [] := by
    refine foldlM_induction (P := fun l => l.program.pipelines.objects = []) ?_ hnone₂ h₃
    intro r _ l l' hl hstep
    obtain ⟨_, _, -, -, rfl⟩ := addAction_eq_ok.mp hstep
    exact hl
  exact ⟨root, pipelines, l₃, l₄, hroot, hp, hnone₃, h₄, rfl⟩

open Loader in
/-- A document is loaded by adding one record after the other. -/
theorem Program.adds_ofDocument {s s' : Store} {v : Value} {g : Program}
    (h : ofDocument s v = .ok (g, s')) : ∃ (root : Object) (layout : Layout) (l : Loader),
      Layout.ofSections (root.get? "header_types") (root.get? "headers") = .ok layout ∧
      Relation.ReflTransGen Adds { program := { layout }, store := s } l ∧
      g = { l.program with extra := root.without sectionKeys } ∧ s' = l.store := by
  obtain ⟨root, layout, _, _, _, _, _, _, _, l, -, hlayout, ha, hc, hact, hp, h₁, h₂, h₃, h₄,
    hg, hs⟩ := ofDocument_eq_ok.mp h
  have harrays := adds_foldlM .array ha h₁
  have hcalculations := adds_foldlM .calculation hc h₂
  have hactions := adds_foldlM .action hact h₃
  have hpipelines := adds_foldlM .pipeline hp h₄
  exact ⟨root, layout, l, hlayout,
    ((harrays.trans hcalculations).trans hactions).trans hpipelines, hg, hs⟩

theorem Program.ofFile_ok {s s' : Store} {document : FileContent} {g : Program}
    (h : ofFile s document = .ok (g, s')) : ∃ v, ofDocument s v = .ok (g, s') := by
  cases document with
  | bytes content =>
    rw [ofFile, ofBytes] at h
    split at h
    case h_1 v _ => exact ⟨v, h⟩
    case h_2 => cases h
  | missing | blocked | unreadable => cases h

end LiveSwitch
