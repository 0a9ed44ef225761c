import LiveSwitch.Proofs.Document.Relinking

/-!
# Pipelines rebuilt from their records

A loader goes through the record of a pipeline four times: tables, conditionals, and their
edges.  Given the record of a pipeline, each time goes through, and the pipeline that results
has that record again, whatever has become of its slots.

## Main definitions

* `Loader.NodesAdded` — nodes were added behind those of a pipeline.

## Main results

* `Loader.addTables_toRecord`, `Loader.addConditionals_toRecord` — the nodes are added.
* `Loader.toRecord_of_relinked` — a pipeline whose nodes were linked anew has the record it had.
* `Loader.addPipeline_toRecord` — a pipeline is rebuilt from its record.
-/

namespace LiveSwitch

open Json

/-! ### Records of nodes -/

/-- A table refers to its actions by the list of all actions. -/
theorem ActionTable.get?_congr {actions actions' : ActionTable}
    (h : actions.actions = actions'.actions) : actions.get? = actions'.get? := by
  funext id
  rw [get?, get?, h]

theorem Table.toRecord_congr_actions {actions actions' : ActionTable}
    (h : actions.actions = actions'.actions) (p : Pipeline) (t : Table) :
    t.toRecord p actions = t.toRecord p actions' := by
  unfold Table.toRecord Table.nextTables
  rw [ActionTable.get?_congr h]

theorem Pipeline.toRecord_congr_actions {actions actions' : ActionTable}
    (h : actions.actions = actions'.actions) (p : Pipeline) :
    p.toRecord actions = p.toRecord actions' := by
  unfold Pipeline.toRecord
  rw [funext fun t => Table.toRecord_congr_actions h p t]

namespace Loader

/-! ### Nodes without edges -/

theorem not_mem_of_nodup {α : Type} {a : α} {l r : List α} (h : (l ++ a :: r).Nodup) : a ∉ l := by
  rw [List.nodup_middle, List.nodup_cons] at h
  exact fun ha => h.1 (List.mem_append_left _ ha)

section

variable {l l₁ : Loader} {p p₁ : Pipeline} {ns : List Node}

/-- Nodes were added behind those of a pipeline.  Their ids are in use now, and no ids of the other
kind. -/
structure NodesAdded {α : Type} [Named α] (node : α → Node) (ids otherIds : Loader → List Int)
    (l : Loader) (ns : List Node) (done : List α) (l' : Loader) (p' : Pipeline) : Prop where
  actions : l'.program.actions = l.program.actions
  packed : p'.Packed (ns ++ done.map node)
  otherIds : otherIds l' = otherIds l
  ids : ∀ id ∈ ids l', id ∈ ids l ∨ id ∈ done.map idOf

section

variable {α β : Type} [Named α] {node : α → Node} {ids otherIds : Loader → List Int}
  {add : Loader → Pipeline → β → Except LoadError (Loader × Pipeline)} {record : α → β}

/-- A record adds a node under a new name and with a new id. -/
theorem NodesAdded.next {done : List α} {x : α}
    (h : NodesAdded node ids otherIds l ns done l₁ p₁) (hnode : ∀ y, (node y).name = nameOf y)
    (hadd : idOf x ∉ ids l₁ → ∀ {ref p₂}, p₁.insertNode (node x) = .ok (ref, p₂) →
      ∃ l₂, add l₁ p₁ (record x) = .ok (l₂, p₂) ∧ l₂.program.actions = l₁.program.actions ∧
        ids l₂ = idOf x :: ids l₁ ∧ otherIds l₂ = otherIds l₁)
    (hname : nameOf x ∉ ns.map Node.name ++ done.map nameOf) (hid : idOf x ∉ done.map idOf)
    (hfresh : idOf x ∉ ids l) : ∃ l₂ p₂, add l₁ p₁ (record x) = .ok (l₂, p₂) ∧
      NodesAdded node ids otherIds l ns (done ++ [x]) l₂ p₂ := by
  have hname' : (node x).name ∉ (ns ++ done.map node).map Node.name := by
    rw [List.map_append, List.map_map, hnode, show Node.name ∘ node = nameOf from funext hnode]
    exact hname
  obtain ⟨ref, p₂, hins, hp₂, -, -⟩ := h.packed.insert hname'
  obtain ⟨l₂, hl₂, hactions, hids, hother⟩ :=
    hadd (fun hmem => (h.ids _ hmem).elim hfresh hid) hins
  refine ⟨l₂, p₂, hl₂, hactions.trans h.actions, ?_, hother.trans h.otherIds, fun id hmem => ?_⟩
  · rw [List.map_append, List.map_singleton, ← List.append_assoc]
    exact hp₂
  · rw [List.map_append, List.map_singleton, List.mem_append, List.mem_singleton]
    rw [hids] at hmem
    rcases List.mem_cons.mp hmem with rfl | hmem
    · exact Or.inr (Or.inr rfl)
    · exact (h.ids id hmem).imp_right Or.inl

/-- Records add their nodes one after the other. -/
theorem addNodes_toRecord {xs : List α} (hnode : ∀ y, (node y).name = nameOf y)
    (hadd : ∀ x ∈ xs, ∀ {l₁ p₁ ref p₂}, l₁.program.actions = l.program.actions →
      idOf x ∉ ids l₁ → p₁.insertNode (node x) = .ok (ref, p₂) →
      ∃ l₂, add l₁ p₁ (record x) = .ok (l₂, p₂) ∧ l₂.program.actions = l₁.program.actions ∧
        ids l₂ = idOf x :: ids l₁ ∧ otherIds l₂ = otherIds l₁)
    (hp : p.Packed ns) (hnames : (ns.map Node.name ++ xs.map nameOf).Nodup)
    (hids : (xs.map idOf).Nodup) (hfresh : ∀ x ∈ xs, idOf x ∉ ids l) :
    ∃ l' p', (xs.map record).foldlM (fun (l, p) r => add l p r) (l, p) = .ok (l', p') ∧
      NodesAdded node ids otherIds l ns xs l' p' := by
  have hstart : NodesAdded node ids otherIds l ns [] l p := by
    refine ⟨rfl, ?_, rfl, fun id => Or.inl⟩
    rw [List.map_nil, List.append_nil]
    exact hp
  have hfold : ∃ x : Loader × Pipeline,
      xs.foldlM (fun x y => add x.1 x.2 (record y)) (l, p) = .ok x ∧
        NodesAdded node ids otherIds l ns xs x.1 x.2 := by
    refine foldlM_progress (fun done (x : Loader × Pipeline) =>
      NodesAdded node ids otherIds l ns done x.1 x.2) hstart ?_
    rintro done x rest ⟨l₁, p₁⟩ rfl h
    have hx : x ∈ done ++ x :: rest := List.mem_append_right _ List.mem_cons_self
    rw [List.map_append, List.map_cons] at hids
    rw [List.map_append, List.map_cons, ← List.append_assoc] at hnames
    obtain ⟨l₂, p₂, hl₂, h₂⟩ := h.next hnode (fun hid _ _ hins => hadd x hx h.actions hid hins)
      (not_mem_of_nodup hnames) (not_mem_of_nodup hids) (hfresh x hx)
    exact ⟨(l₂, p₂), hl₂, h₂⟩
  obtain ⟨⟨l', p'⟩, hfold, h⟩ := hfold
  rw [List.foldlM_map]
  exact ⟨l', p', hfold, h⟩

end

/-- Tables are added without their edges and entries. -/
theorem addTables_toRecord {ts : List Table} (p₀ : Pipeline) (hp : p.Packed ns)
    (hts : ∀ t ∈ ts, t.Sound l.program.actions) (hnames : (ns.map Node.name ++ ts.map nameOf).Nodup)
    (hids : (ts.map idOf).Nodup) (hfresh : ∀ t ∈ ts, idOf t ∉ l.tableIds) :
    ∃ l' p', (ts.map (Table.toRecord p₀ l.program.actions)).foldlM
        (fun (l, p) r => addTable l p r) (l, p) = .ok (l', p') ∧
      NodesAdded (fun t => .table t.bare) (·.tableIds) (·.conditionalIds) l ns ts l' p' := by
  refine addNodes_toRecord (fun _ => rfl) (fun t ht l₁ p₁ ref p₂ hactions hid hins => ?_) hp hnames
    hids hfresh
  have hrefs : ∀ id ∈ t.actionIds, (l₁.program.action? id).isSome := by
    intro id hid
    rw [Program.action?, hactions]
    exact (hts t ht).actions id hid
  have hadd := addTable_eq_ok.mpr
    ⟨t.bare, ref, hid, hrefs, Table.ofRecord_toRecord (hts t ht) p₀, hins, rfl⟩
  exact ⟨_, hadd, rfl, rfl, rfl⟩

/-- Conditionals are added without their edges. -/
theorem addConditionals_toRecord {cs : List Conditional} (p₀ : Pipeline) (hp : p.Packed ns)
    (hcs : ∀ c ∈ cs, c.Sound) (hflex : ∀ c ∈ cs, c.condition? = none → c.flex = true)
    (hnames : (ns.map Node.name ++ cs.map nameOf).Nodup) (hids : (cs.map idOf).Nodup)
    (hfresh : ∀ c ∈ cs, idOf c ∉ l.conditionalIds) :
    ∃ l' p', (cs.map (Conditional.toRecord p₀)).foldlM
        (fun (l, p) r => addConditional l p r) (l, p) = .ok (l', p') ∧
      NodesAdded (fun c => .conditional c.bare) (·.conditionalIds) (·.tableIds) l ns cs l' p' := by
  refine addNodes_toRecord (fun _ => rfl) (fun c hc l₁ p₁ ref p₂ _ hid hins => ?_) hp hnames hids
    hfresh
  have hrecord : conditionalOf (c.toRecord p₀) = .ok c.bare :=
    (Conditional.conditionalOf_toRecord (hcs c hc) p₀).mpr ⟨hflex c hc, rfl⟩
  exact ⟨_, addConditional_eq_ok.mpr ⟨c.bare, ref, hid, hrecord, hins, rfl⟩, rfl, rfl, rfl⟩

/-! ### Pipelines -/

/-- A pipeline whose nodes were linked anew has the record it had. -/
theorem toRecord_of_relinked {actions : ActionTable} {p q : Pipeline} {ts' : List Table}
    {cs' : List Conditional} {names : List String}
    (hq : q.Packed (ts'.map Node.table ++ cs'.map Node.conditional))
    (hnames : (ts'.map Node.table ++ cs'.map Node.conditional).map Node.name = names)
    (hts : p.tables.Forall₂ (Table.Relinked names actions p) ts')
    (hcs : p.conditionals.Forall₂ (Conditional.Relinked names p) cs')
    (hidentity : q.identity = p.identity) (hextra : q.extra = p.extra)
    (hinit : q.nodeName? q.init = p.nodeName? p.init) :
    q.toRecord actions = p.toRecord actions := by
  have htableIds : ts'.map idOf = p.tables.map idOf :=
    map_eq_map_of_forall₂ hts fun _ _ h => congrArg Identity.id h.identity
  have hconditionalIds : cs'.map idOf = p.conditionals.map idOf :=
    map_eq_map_of_forall₂ hcs fun _ _ h => congrArg Identity.id h.identity
  have htables : q.tables = ts' := by
    refine hq.tables_eq ?_
    rw [htableIds]
    exact Pipeline.pairwise_sortById _
  have hconditionals : q.conditionals = cs' := by
    refine hq.conditionals_eq ?_
    rw [hconditionalIds]
    exact Pipeline.pairwise_sortById _
  have htableRecords : ts'.map (Table.toRecord q actions) =
      p.tables.map (Table.toRecord p actions) :=
    map_eq_map_of_forall₂ hts fun _ _ h => h.record hq hnames
  have hconditionalRecords : cs'.map (Conditional.toRecord q) =
      p.conditionals.map (Conditional.toRecord p) :=
    map_eq_map_of_forall₂ hcs fun _ _ h => h.record hq hnames
  unfold Pipeline.toRecord
  rw [htables, hconditionals, htableRecords, hconditionalRecords, hidentity, hextra, hinit]

/-- A pipeline is rebuilt from its record, its nodes in one row of slots. -/
theorem addPipeline_toRecord {q : Pipeline} (hq : q.Sound l.program.actions)
    (hnames : (q.nodes.map Node.name).Nodup)
    (hflex : ∀ c ∈ q.conditionals, c.condition? = none → c.flex = true)
    (htableIds : (q.tables.map idOf).Nodup) (hconditionalIds : (q.conditionals.map idOf).Nodup)
    (htables : ∀ t ∈ q.tables, idOf t ∉ l.tableIds)
    (hconditionals : ∀ c ∈ q.conditionals, idOf c ∉ l.conditionalIds)
    (hstrays : l.program.pipelines.strays = [])
    (hbefore : ∀ p ∈ l.program.pipelines.objects, p.identity.Before q.identity) :
    ∃ l' q', l.addPipeline (q.toRecord l.program.actions) = .ok l' ∧
      q'.toRecord l.program.actions = q.toRecord l.program.actions ∧
      l'.program = { l.program with
        pipelines := l'.program.pipelines
        tableIds := l'.program.tableIds
        conditionalIds := l'.program.conditionalIds } ∧
      l'.program.pipelines.objects = l.program.pipelines.objects ++ [q'] ∧
      l'.program.pipelines.strays = [] ∧
      (∀ id ∈ l'.tableIds, id ∈ l.tableIds ∨ id ∈ q.tables.map idOf) ∧
      ∀ id ∈ l'.conditionalIds, id ∈ l.conditionalIds ∨ id ∈ q.conditionals.map idOf := by
  have hperm := (Pipeline.perm_nodes q).map Node.name
  have hmem : ∀ n, n ∈ q.tables.map Node.table ++ q.conditionals.map Node.conditional ↔
      n ∈ q.nodes := fun n => (Pipeline.perm_nodes q).mem_iff
  rw [← hperm.nodup_iff, List.map_append, List.map_map, List.map_map] at hnames
  rw [List.map_append, List.map_map, List.map_map] at hperm
  have hts : ∀ t ∈ q.tables, t.Sound l.program.actions := fun t ht =>
    hq.nodes (.table t) ((hmem _).mp (List.mem_append_left _ (List.mem_map_of_mem ht)))
  have hcs : ∀ c ∈ q.conditionals, c.Sound := fun c hc =>
    hq.nodes (.conditional c) ((hmem _).mp (List.mem_append_right _ (List.mem_map_of_mem hc)))
  -- the nodes, without edges
  have hempty := Pipeline.Packed.empty q.identity q.extra
  obtain ⟨l₁, p₁, h₁, ⟨-, hp₁, hkept₁, hused₁⟩⟩ :=
    addTables_toRecord (l := l) q hempty hts hnames.of_append_left htableIds htables
  rw [List.nil_append] at hp₁
  obtain ⟨l₂, p₂, h₂, ⟨-, hp₂, hkept₂, hused₂⟩⟩ :=
    addConditionals_toRecord (l := l₁) q hp₁ hcs hflex (by rw [List.map_map]; exact hnames)
      hconditionalIds (by rw [hkept₁]; exact hconditionals)
  obtain ⟨-, hprogram, hidentity, hextra⟩ :=
    addNodes_keep (r := q.toRecord l.program.actions) h₁ h₂
  have hactions : l₂.program.actions = l.program.actions := by rw [hprogram]
  -- the edges
  have hin : ∀ name ∈ q.nodes.map Node.name,
      name ∈ q.tables.map nameOf ++ q.conditionals.map nameOf := fun _ h => hperm.mem_iff.mpr h
  rw [← List.nil_append (_ ++ _)] at hp₂
  obtain ⟨p₃, ts', h₃, hp₃, hts'⟩ := linkTables_toRecord (g := l₂.program) hp₂
    (by rw [List.nil_append, List.map_append, List.map_map, List.map_map]; rfl)
    (by rw [hactions]; exact hts) hin
  rw [hactions] at h₃ hts'
  rw [List.nil_append] at hp₃
  have hnames₃ : ts'.map nameOf = q.tables.map nameOf :=
    map_eq_map_of_forall₂ hts' fun _ _ h => congrArg Identity.name h.identity
  obtain ⟨p₄, cs', h₄, hp₄, hcs'⟩ := linkConditionals_toRecord hp₃
    (by rw [List.map_append, List.map_map, List.map_map, ← hnames₃]; rfl) hin
  have hnames₄ : cs'.map nameOf = q.conditionals.map nameOf :=
    map_eq_map_of_forall₂ hcs' fun _ _ h => congrArg Identity.name h.identity
  have hall : (ts'.map Node.table ++ cs'.map Node.conditional).map Node.name =
      q.tables.map nameOf ++ q.conditionals.map nameOf := by
    rw [List.map_append, List.map_map, List.map_map, ← hnames₃, ← hnames₄]
    rfl
  -- the start
  have hinit : ∀ name ∈ q.nodeName? q.init,
      name ∈ (ts'.map Node.table ++ cs'.map Node.conditional).map Node.name := by
    intro name hname
    rw [hall]
    exact hin name (Pipeline.mem_of_nodeName? hname)
  obtain ⟨hidentity₄, hextra₄⟩ := linkNodes_keep (r := q.toRecord l.program.actions) h₃ h₄
  let q' : Pipeline := { p₄ with init := (q.nodeName? q.init).bind p₄.find? }
  have hrecord : q'.toRecord l.program.actions = q.toRecord l.program.actions := by
    have hq' : q'.Packed (ts'.map Node.table ++ cs'.map Node.conditional) :=
      ⟨hp₄.free, hp₄.slots, hp₄.names, hp₄.found, hp₄.named⟩
    exact toRecord_of_relinked hq' hall hts' hcs' (hidentity₄.trans hidentity)
      (hextra₄.trans hextra) (hp₄.nodeName?_bind_find? hinit)
  let pipelines : ObjectMap Pipeline :=
    { objects := l.program.pipelines.objects ++ [q']
      strays := l.program.pipelines.strays
      ids := l.program.pipelines.ids.observe (idOf q') }
  have hpipelines : l₂.program.pipelines.insert q' = .ok pipelines := by
    have hlast : ∀ p ∈ l.program.pipelines.objects, p.identity.Before q'.identity := by
      intro p hp
      rw [show q'.identity = q.identity from hidentity₄.trans hidentity]
      exact hbefore p hp
    rw [hprogram]
    exact ObjectMap.insert_eq_append hstrays hlast
  refine ⟨_, q', addPipeline_eq_ok.mpr ⟨l₁, p₁, l₂, p₂, p₃, p₄, _, _, h₁, h₂, h₃, h₄,
    hp₄.resolve_eq hinit _ _, hpipelines, rfl⟩, hrecord, ?_, rfl, hstrays,
    ?_, ?_⟩
  · exact congrArg (fun g : Program => { g with pipelines }) hprogram
  · rw [← hkept₂] at hused₁
    exact hused₁
  · rw [hkept₁] at hused₂
    exact hused₂

end

end Loader

end LiveSwitch
