import LiveSwitch.Proofs.Document.Reloading

/-!
# Nodes of a loaded pipeline

The nodes of a pipeline that was loaded are those of its record, in the order of the record.  They
are as bare as a document can show them: tables have no entries, and an edge of an action stands
under a key by which a document can name it.

## Main definitions

* `Node.Loaded` — what holds of the nodes of a loaded program.

## Main results

* `Loader.nodes_addPipeline` — the nodes of a loaded pipeline are those of its record.
-/

namespace LiveSwitch

open Json

/-! ### Nodes of a loaded pipeline -/

/-- What holds of the nodes of a program with certain actions that was just loaded. -/
structure Node.Loaded (g : Program) (n : Node) : Prop where
  id : Identity.validId n.identity.id
  condition : ∀ c ∈ n.conditional?, c.condition? = none → c.flex = true
  entries : ∀ t ∈ n.table?, t.entries = []
  /-- A document can name the action of an edge. -/
  action : ∀ id e, n.edgeAt? (.action id) = some e →
    ∃ key, Loader.nextPort? g n.outline.2 key = some (.action id)

theorem Node.Loaded.congr {g g' : Program} {n : Node} (h : n.Loaded g)
    (hg : g.actions = g'.actions) : n.Loaded g' where
  id := h.id
  condition := h.condition
  entries := h.entries
  action id e he := by
    obtain ⟨key, hkey⟩ := h.action id e he
    exact ⟨key, (Loader.nextPort?_congr (congrArg _ hg) _ key).symm.trans hkey⟩

/-- The ids of a record that was read are integers of 32 bits. -/
theorem PipelineRecord.validIds_of_decode {v : Value} {r : PipelineRecord}
    (h : decode v = some r) : (∀ t ∈ r.tables, Identity.validId t.identity.id) ∧
      ∀ c ∈ r.conditionals, Identity.validId c.identity.id := by
  obtain ⟨o, -, -, htables, hconditionals, -⟩ := decode_eq_some h
  constructor
  · refine Decode.forall_of_withDefault (P := fun ts : List TableRecord =>
      ∀ t ∈ ts, Identity.validId t.identity.id) (List.forall_mem_nil _)
      (fun v ts hts t ht => ?_) htables
    obtain ⟨w, hw⟩ := Decode.exists_of_listOf hts ht
    obtain ⟨o, -, hidentity, -⟩ := TableRecord.decode_eq_some hw
    exact (Identity.of_decode hidentity).1
  · refine Decode.forall_of_withDefault (P := fun cs : List ConditionalRecord =>
      ∀ c ∈ cs, Identity.validId c.identity.id) (List.forall_mem_nil _)
      (fun v cs hcs c hc => ?_) hconditionals
    obtain ⟨w, hw⟩ := Decode.exists_of_listOf hcs hc
    obtain ⟨o, -, hidentity, -⟩ := ConditionalRecord.decode_eq_some hw
    exact (Identity.of_decode hidentity).1

namespace Loader

variable {g : Program} {l l' : Loader} {p p' : Pipeline} {ns : List Node}

theorem keptByLinks_loaded (g : Program) : KeptByLinks g (Node.Loaded g) := by
  intro n q e hn hq
  refine ⟨?_, ?_, ?_, fun id e' he' => ?_⟩
  · rw [Node.identity_setEdge]
    exact hn.id
  · intro c hc
    cases n with
    | table t => cases q <;> cases hc
    | conditional c₀ =>
      have hc₀ := hn.condition c₀ rfl
      cases q with
      | branch b =>
        cases b <;>
        · cases hc
          exact hc₀
      | action | hit | miss | base =>
        cases hc
        exact hc₀
  · intro t ht
    cases n with
    | conditional c => cases q <;> cases ht
    | table t₀ =>
      have ht₀ := hn.entries t₀ rfl
      cases q <;>
      · cases ht
        exact ht₀
  · rw [Node.outline_setEdge]
    by_cases htakes : n.takes q = true
    · rw [Node.edgeAt?_setEdge htakes] at he'
      split at he'
      case isTrue heq => exact hq id heq.symm
      case isFalse => exact hn.action id e' he'
    · rw [Node.setEdge_of_not_takes (Bool.not_eq_true _ ▸ htakes)] at he'
      exact hn.action id e' he'

theorem loaded_ofRecord {r : TableRecord} {t : Table} (h : Table.ofRecord r = .ok t)
    (hid : Identity.validId r.identity.id) : (Node.table t).Loaded g := by
  obtain ⟨_, _, -, -, rfl⟩ := Table.ofRecord_eq_ok.mp h
  refine ⟨hid, nofun, ?_, nofun⟩
  rintro t ⟨⟩
  rfl

theorem loaded_conditionalOf {r : ConditionalRecord} {c : Conditional}
    (h : conditionalOf r = .ok c) (hid : Identity.validId r.identity.id) :
    (Node.conditional c).Loaded g := by
  obtain ⟨condition?, -, hflex, rfl⟩ := conditionalOf_eq_ok.mp h
  refine ⟨hid, ?_, nofun, nofun⟩
  rintro c ⟨⟩
  exact hflex

/-- The nodes of records are added in the order of the records. -/
theorem packed_addNodes {α β : Type}
    {add : Loader → Pipeline → α → Except LoadError (Loader × Pipeline)} {node : β → Node}
    {R : α → β → Prop} (hadd : ∀ {l l' p p' r}, add l p r = .ok (l', p') →
      ∃ x ref, R r x ∧ p.insertNode (node x) = .ok (ref, p')) {records : List α}
    (h : records.foldlM (fun (l, p) r => add l p r) (l, p) = .ok (l', p')) (hp : p.Packed ns) :
    ∃ xs, p'.Packed (ns ++ xs.map node) ∧ List.Forall₂ R records xs := by
  induction records generalizing l p ns with
  | nil =>
    rw [foldlM_nil_eq_ok] at h
    cases h
    exact ⟨[], by rwa [List.map_nil, List.append_nil], .nil⟩
  | cons r records ih =>
    obtain ⟨⟨l₁, p₁⟩, hstep, h⟩ := foldlM_cons_eq_ok.mp h
    obtain ⟨x, _, hx, hins⟩ := hadd hstep
    obtain ⟨xs, hp', hxs⟩ := ih h (hp.of_insertNode hins)
    rw [List.append_assoc] at hp'
    exact ⟨x :: xs, hp', .cons hx hxs⟩

theorem packed_addTables {records : List TableRecord}
    (h : records.foldlM (fun (l, p) t => addTable l p t) (l, p) = .ok (l', p'))
    (hp : p.Packed ns) : ∃ ts : List Table, p'.Packed (ns ++ ts.map Node.table) ∧
      List.Forall₂ (fun r t => Table.ofRecord r = .ok t) records ts := by
  refine packed_addNodes (fun hadd => ?_) h hp
  obtain ⟨t, ref, -, -, ht, hins, -⟩ := addTable_eq_ok.mp hadd
  exact ⟨t, ref, ht, hins⟩

theorem packed_addConditionals {records : List ConditionalRecord}
    (h : records.foldlM (fun (l, p) c => addConditional l p c) (l, p) = .ok (l', p'))
    (hp : p.Packed ns) : ∃ cs : List Conditional, p'.Packed (ns ++ cs.map Node.conditional) ∧
      List.Forall₂ (fun r c => conditionalOf r = .ok c) records cs := by
  refine packed_addNodes (fun hadd => ?_) h hp
  obtain ⟨c, ref, -, hc, hins, -⟩ := addConditional_eq_ok.mp hadd
  exact ⟨c, ref, hc, hins⟩

/-- The nodes of records have the outlines of the records. -/
theorem outline_ofRecords {tables : List TableRecord} {conditionals : List ConditionalRecord}
    {ts : List Table} {cs : List Conditional}
    (hts : tables.Forall₂ (fun r t => Table.ofRecord r = .ok t) ts)
    (hcs : conditionals.Forall₂ (fun r c => conditionalOf r = .ok c) cs) :
    (ts.map Node.table ++ cs.map Node.conditional).map Node.outline =
      tables.map TableRecord.outline ++ conditionals.map ConditionalRecord.outline := by
  rw [List.map_append, List.map_map, List.map_map]
  congr 1
  · refine map_eq_map_of_forall₂ hts fun r t ht => ?_
    obtain ⟨_, _, -, -, rfl⟩ := Table.ofRecord_eq_ok.mp ht
    rfl
  · refine map_eq_map_of_forall₂ hcs fun r c hc => ?_
    obtain ⟨_, -, -, rfl⟩ := conditionalOf_eq_ok.mp hc
    rfl

/-- The nodes of a loaded pipeline are those of its record. -/
theorem nodes_addPipeline {v : Value} {r : PipelineRecord} (hv : PipelineRecord.decode v = some r)
    (h : l.addPipeline r = .ok l') : ∃ p, l.program.pipelines.insert p = .ok l'.program.pipelines ∧
      p.identity = r.identity ∧ p.nodes.map Node.outline =
        r.tables.map TableRecord.outline ++ r.conditionals.map ConditionalRecord.outline ∧
      ∀ n ∈ p.nodes, n.Loaded l.program := by
  obtain ⟨l₁, p₁, l₂, p₂, p₃, p₄, init, pipelines, h₁, h₂, h₃, h₄, -, hins, rfl⟩ :=
    addPipeline_eq_ok.mp h
  obtain ⟨-, hprogram, hidentity, -⟩ := addNodes_keep h₁ h₂
  obtain ⟨ts, hp₁, hts⟩ := packed_addTables h₁ (.empty r.identity r.extra)
  obtain ⟨cs, hp₂, hcs⟩ := packed_addConditionals h₂ hp₁
  rw [List.nil_append] at hp₂
  obtain ⟨hidtables, hidconditionals⟩ := PipelineRecord.validIds_of_decode hv
  have hout := outline_ofRecords hts hcs
  have hbare : ∀ n ∈ ts.map Node.table ++ cs.map Node.conditional, n.Loaded l₂.program := by
    intro n hn
    rcases List.mem_append.mp hn with hn | hn
    · obtain ⟨t, ht, rfl⟩ := List.mem_map.mp hn
      obtain ⟨r, hr, hrt⟩ := exists_of_forall₂ hts ht
      exact loaded_ofRecord hrt (hidtables r hr)
    · obtain ⟨c, hc, rfl⟩ := List.mem_map.mp hn
      obtain ⟨r, hr, hrc⟩ := exists_of_forall₂ hcs hc
      exact loaded_conditionalOf hrc (hidconditionals r hr)
  obtain ⟨ns, hp₄, hout₄, hns⟩ :=
    keeps_linkNodes (keptByLinks_loaded l₂.program) h₃ h₄ hp₂ hbare hout
  have hactions : l₂.program.actions = l.program.actions := by rw [hprogram]
  rw [hprogram] at hins
  refine ⟨{ p₄ with init }, hins, (linkNodes_keep h₃ h₄).1.trans hidentity, ?_, ?_⟩
  · show p₄.nodes.map Node.outline = _
    rw [hp₄.nodes_eq, hout₄, hout]
  · intro n hn
    exact (hns n (hp₄.nodes_eq ▸ hn)).congr hactions

end Loader

end LiveSwitch
