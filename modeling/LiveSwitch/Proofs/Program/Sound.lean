import LiveSwitch.Document.Render
import LiveSwitch.Proofs.Document.Records
import LiveSwitch.Proofs.Plan.Layouts
import LiveSwitch.Proofs.Program.Wiring

/-!
# Programs that came from documents

What a loader checks about an object stays true of it while the program is edited: texts were
read into what they say, sizes are within their limits, the fields that have no meaning here
stay clear of those that do.  About a program as a whole, names stay unique, and so do the ids of
whatever is kept in the order of ids.  This file states that invariant and shows what keeps it.

Nodes of different pipelines draw their ids from one counter but are kept apart, so that their
ids are unique in a loaded program, and stay so as long as no id comes round.  That is no part
of the invariant.

## Main definitions

* `RegisterArray.Sound`, `Calculation.Sound`, `Action.Sound`, `Node.Sound`, `Pipeline.Sound` —
  what holds of one object.
* `Program.Sound` — the invariant, with `Program.SoundObjects` for its objects.
* `UniqueIds`, `Program.HasNode` — ids of nodes are unique over all pipelines.

## Main results

* `Table.Sound.instantiate`, `Table.Sound.setEdge`, … — new nodes and changed ones are sound.
* `Program.Sound.setPipeline`, `Program.Sound.insertNode` — changes of one pipeline keep the
  invariant.
-/

namespace LiveSwitch

open Json

/-! ### One object -/

/-- A register array that a document can declare. -/
structure RegisterArray.Sound (a : RegisterArray) : Prop where
  record : Record.Encodable ArrayRecord.keys a.identity a.extra
  size : Register.validSize a.size
  bitwidth : Register.validBitwidth a.bitwidth

/-- A calculation whose inputs are fields of some layout. -/
structure Calculation.Sound (c : Calculation) : Prop where
  record : Record.Encodable CalculationRecord.keys c.identity c.extra
  inputs : ∃ layout, c.inputJson.mapM (Calculation.decodeInput layout c.identity.name) =
    .ok c.inputs

/-- An action whose primitives say what its document says. -/
structure Action.Sound (a : Action) : Prop where
  record : a.toRecord.Encodable
  primitives : a.primitivesJson.mapM (Primitive.decode a.identity.name) = .ok a.primitives

/-- A conditional whose condition says what its document says. -/
structure Conditional.Sound (c : Conditional) : Prop where
  record : Record.Encodable ConditionalRecord.keys c.identity c.extra
  condition : ∀ d ∈ c.condition?, Condition.decode d.json = .ok d

/-- A table whose key says what its document says, and whose actions exist; its edges and entries
are for these actions. -/
structure Table.Sound (actions : ActionTable) (t : Table) : Prop where
  record : Record.Encodable TableRecord.keys t.identity t.extra
  key : t.keyJson.mapM (Table.decodeKey t.identity.name) = .ok t.keyFields
  actions : ∀ id ∈ t.actionIds, (actions.get? id).isSome
  next : ∀ x ∈ t.nextByAction, x.1 ∈ t.actionIds
  entries : ∀ x ∈ t.entries, x.2.actionId ∈ t.actionIds
  default : ∀ d ∈ t.default?, Object.Free DefaultRecord.keys d.extra ∧
    (Identity.validId d.actionId ∨ d.actionId ∈ t.actionIds)

/-- A node that a document can declare. -/
def Node.Sound (actions : ActionTable) : Node → Prop
  | conditional c => c.Sound
  | table t => t.Sound actions

/-- A pipeline that a document can declare. -/
structure Pipeline.Sound (actions : ActionTable) (p : Pipeline) : Prop where
  record : Record.Encodable PipelineRecord.keys p.identity p.extra
  nodes : ∀ n ∈ p.nodes, n.Sound actions

/-- No action has the largest id, after which ids come round. -/
def ActionTable.BelowMax (t : ActionTable) : Prop := ∀ a ∈ t.actions, idOf a < maxId

/-- As long as the ids of actions stay below the largest one, the counter is ahead of them. -/
def ActionTable.Counted (t : ActionTable) : Prop :=
  t.BelowMax → ∀ a ∈ t.actions, idOf a < t.ids.next

/-! ### Ids of nodes -/

/-- The identity of a node, and whether it is a table: tables have ids of their own. -/
def Node.tag (n : Node) : Identity × Bool := (n.identity, n.table?.isSome)

@[simp] theorem Node.tag_setEdge (q : Port) (e : Edge) (n : Node) :
    (n.setEdge q e).tag = n.tag := by
  cases n with
  | conditional c => cases q with
    | branch b => cases b <;> rfl
    | action | hit | miss | base => rfl
  | table t => cases q <;> rfl

/-- Nodes, each with the name of its pipeline, have ids of their own. -/
structure UniqueIds (S : String → Identity × Bool → Prop) : Prop where
  unique : ∀ {P Q x y}, S P x → S Q y → x.2 = y.2 → x.1.id = y.1.id → P = Q ∧ x.1.name = y.1.name

theorem UniqueIds.mono {S S' : String → Identity × Bool → Prop} (h : UniqueIds S)
    (hS : ∀ P x, S' P x → S P x) : UniqueIds S' :=
  ⟨fun hx hy => h.unique (hS _ _ hx) (hS _ _ hy)⟩

/-- A node is added under an id that no node of its kind has. -/
theorem UniqueIds.insert {S S' : String → Identity × Bool → Prop} (h : UniqueIds S) {P : String}
    {x : Identity × Bool} (hS : ∀ Q y, S' Q y → (Q = P ∧ y = x) ∨ S Q y)
    (hfresh : ∀ Q y, S Q y → y.2 = x.2 → y.1.id ≠ x.1.id) : UniqueIds S' where
  unique {Q R y z} hy hz hkind hid := by
    rcases hS _ _ hy with ⟨rfl, rfl⟩ | hy'
    · rcases hS _ _ hz with ⟨rfl, rfl⟩ | hz'
      · exact ⟨rfl, rfl⟩
      · exact absurd hid.symm (hfresh _ _ hz' hkind.symm)
    · rcases hS _ _ hz with ⟨rfl, rfl⟩ | hz'
      · exact absurd hid (hfresh _ _ hy' hkind)
      · exact h.unique hy' hz' hkind hid

namespace Program

/-- A pipeline of a program has a node. -/
def HasNode (g : Program) (P : String) (x : Identity × Bool) : Prop :=
  ∃ p ∈ g.pipelines.objects, p.name = P ∧ ∃ n ∈ p.nodes, n.tag = x

/-- The next id of a node: of a table or of a conditional. -/
def nextNode (g : Program) (table : Bool) : Int :=
  if table then g.tableIds.next else g.conditionalIds.next

/-- What holds of the objects of every program that came from documents. -/
structure SoundObjects (g : Program) : Prop where
  arraysConsistent : g.arrays.Consistent
  arrays : ∀ a ∈ g.arrays.objects, a.Sound
  calculationsConsistent : g.calculations.Consistent
  calculations : ∀ c ∈ g.calculations.objects, c.Sound
  actionIds : (g.actions.actions.map idOf).Pairwise (· < ·)
  actionsCounted : g.actions.Counted
  actions : ∀ a ∈ g.actions.actions, a.Sound
  pipelinesConsistent : g.pipelines.Consistent
  pipelines : ∀ p ∈ g.pipelines.objects, p.Sound g.actions

/-- What holds of every program that came from documents. -/
structure Sound (g : Program) : Prop extends g.SoundObjects where
  layout : Layout.ofSections (g.extra.get? "header_types") (g.extra.get? "headers") =
    .ok g.layout
  extra : Object.Free sectionKeys g.extra
  graphs : ∃ log, g.Follows log

end Program

/-! ### Definitions of new objects -/

theorem Table.Sound.mono {actions actions' : ActionTable} {t : Table} (h : t.Sound actions)
    (hactions : ∀ id, (actions.get? id).isSome → (actions'.get? id).isSome) : t.Sound actions' where
  record := h.record
  key := h.key
  actions id hid := hactions id (h.actions id hid)
  next := h.next
  entries := h.entries
  default := h.default

theorem Pipeline.Sound.mono {actions actions' : ActionTable} {p : Pipeline} (h : p.Sound actions)
    (hactions : ∀ id, (actions.get? id).isSome → (actions'.get? id).isSome) :
    p.Sound actions' where
  record := h.record
  nodes n hn := by
    have hsound := h.nodes n hn
    cases n with
    | conditional c => exact hsound
    | table t => exact Table.Sound.mono hsound hactions

/-- Only the place in the source text of an identity is in question. -/
theorem Record.Encodable.rename {known : List String} {i : Identity} {extra : Object}
    (h : Record.Encodable known i extra) (name : String) (id : Int) :
    Record.Encodable known ⟨name, id, i.source?⟩ extra :=
  ⟨h.identity, h.extra⟩

theorem Calculation.Sound.withId {c : Calculation} (h : c.Sound) (id : Int) :
    (c.withId id).Sound :=
  ⟨h.record.rename c.identity.name id, h.inputs⟩

theorem Action.Sound.withId {a : Action} (h : a.Sound) (id : Int) : (a.withId id).Sound :=
  ⟨⟨h.record.record.rename a.identity.name id, h.record.parameters⟩, h.primitives⟩

theorem Conditional.Sound.instantiate {c : Conditional} (h : c.Sound) (name : String) (id : Int) :
    (c.instantiate name id).Sound :=
  ⟨h.record.rename name id, h.condition⟩

namespace Table

/-- The name of a table shows only where its key is refused. -/
theorem mapM_decodeKey {name : String} {l : List Value} {fields : List String}
    (h : l.mapM (decodeKey name) = .ok fields) (name' : String) :
    l.mapM (decodeKey name') = .ok fields := by
  rw [mapM_eq_ok] at h ⊢
  refine h.imp fun v field hv => ?_
  unfold decodeKey at hv ⊢
  split at hv
  case h_1 => exact hv
  case h_2 => cases hv

theorem mem_nullEdges {ids : List Int} {m : List (Int × Edge)} {x : Int × Edge}
    (h : x ∈ ids.foldl (fun m id => Assoc.insert id none m) m) : x.1 ∈ ids ∨ x ∈ m := by
  induction ids generalizing m with
  | nil => exact Or.inr h
  | cons id ids ih =>
    rcases ih h with h | h
    · exact Or.inl (List.mem_cons_of_mem id h)
    · rcases Assoc.mem_insert h with rfl | h
      · exact Or.inl List.mem_cons_self
      · exact Or.inr h

/-- An id among the replaced ones becomes the new one in one of its places, any other stays. -/
theorem renumber_cases {old new : List Int} (hlength : old.length = new.length) (id : Int) :
    (id, renumber old new id) ∈ old.zip new ∨ (renumber old new id = id ∧ id ∉ old) := by
  unfold renumber
  cases hlookup : (old.zip new).reverse.lookup id with
  | some j =>
    have hmem : (id, j) ∈ old.zip new := by
      obtain ⟨l, l', hl, -⟩ := List.lookup_eq_some_iff.mp hlookup
      rw [← List.mem_reverse, hl]
      exact List.mem_append_right _ List.mem_cons_self
    exact Or.inl hmem
  | none =>
    refine Or.inr ⟨rfl, fun hid => ?_⟩
    obtain ⟨i, hi, rfl⟩ := List.mem_iff_getElem.mp hid
    have hzip : (old[i], new[i]) ∈ (old.zip new).reverse := by
      rw [List.mem_reverse, List.mem_iff_getElem]
      exact ⟨i, by simp; omega, by simp⟩
    rw [List.lookup_eq_none_iff] at hlookup
    have hne := hlookup _ hzip
    simp at hne

theorem Sound.instantiate {actions actions' : ActionTable} {t : Table} (h : t.Sound actions)
    (name : String) (id : Int) {ids : List Int} (hlength : t.actionIds.length = ids.length)
    (hids : ∀ id ∈ ids, (actions'.get? id).isSome) :
    (t.instantiate name id ids).Sound actions' where
  record := h.record.rename name id
  key := mapM_decodeKey h.key name
  actions := hids
  next x hx := (mem_nullEdges hx).resolve_right List.not_mem_nil
  entries := nofun
  default d hd := by
    obtain ⟨d₀, hd₀, rfl⟩ := Option.map_eq_some_iff.mp hd
    obtain ⟨hextra, hid⟩ := h.default d₀ hd₀
    refine ⟨hextra, ?_⟩
    rcases renumber_cases hlength d₀.actionId with hnew | ⟨hsame, hold⟩
    · exact Or.inr (List.of_mem_zip hnew).2
    · exact Or.inl (hsame.symm ▸ hid.resolve_right hold)

/-- An edge is set, and if it is the edge of an action, the table has that action. -/
theorem Sound.setEdge {actions : ActionTable} {t : Table} (h : t.Sound actions) {q : Port}
    (e : Edge) (hq : ∀ id, q = .action id → id ∈ t.actionIds) :
    ((Node.table t).setEdge q e).Sound actions := by
  cases q with
  | branch b => exact h
  | action id =>
    refine ⟨h.record, h.key, h.actions, ?_, h.entries, h.default⟩
    intro x hx
    rcases Assoc.mem_insert hx with rfl | hx
    · exact hq id rfl
    · exact h.next x hx
  | hit | miss | base => exact ⟨h.record, h.key, h.actions, h.next, h.entries, h.default⟩

end Table

theorem Conditional.Sound.setEdge {actions : ActionTable} {c : Conditional} (h : c.Sound)
    (q : Port) (e : Edge) : ((Node.conditional c).setEdge q e).Sound actions := by
  cases q with
  | branch b => cases b <;> exact ⟨h.record, h.condition⟩
  | action | hit | miss | base => exact h

/-! ### Changes of one pipeline -/

namespace Program

variable {g g' donor : Program} {pipeline : String} {p p' : Pipeline}

theorem hasNode_setPipeline (hname : p'.name = pipeline) {P : String} {x : Identity × Bool}
    (h : (g.setPipeline pipeline p').HasNode P x) :
    (P = pipeline ∧ ∃ n ∈ p'.nodes, n.tag = x) ∨ g.HasNode P x := by
  obtain ⟨q, hq, rfl, hx⟩ := h
  obtain ⟨a, ha, rfl⟩ := ObjectMap.mem_modify.mp hq
  by_cases hn : nameOf a = pipeline
  · rw [if_pos hn] at hx ⊢
    exact Or.inl ⟨hname, hx⟩
  · rw [if_neg hn] at hx ⊢
    exact Or.inr ⟨a, ha, rfl, hx⟩

theorem pipelines_setPipeline (hg : ∀ q ∈ g.pipelines.objects, q.Sound g.actions)
    (hp' : p'.Sound g.actions) :
    ∀ q ∈ (g.setPipeline pipeline p').pipelines.objects, q.Sound g.actions := by
  intro q hq
  obtain ⟨a, ha, rfl⟩ := ObjectMap.mem_modify.mp hq
  split
  · exact hp'
  · exact hg a ha

theorem consistent_setPipeline (hg : g.pipelines.Consistent)
    (hp : g.pipeline? pipeline = some p) (hidentity : p'.identity = p.identity) :
    (g.setPipeline pipeline p').pipelines.Consistent := by
  obtain ⟨hmem, hname⟩ := ObjectMap.mem_of_get? hp
  have hname' : nameOf p' = pipeline := (congrArg Identity.name hidentity).trans hname
  refine hg.modify (fun _ _ => hname') fun a ha haname => ?_
  have heq : a = p := ObjectMap.eq_of_name_eq hg.names ha hmem (haname.trans hname.symm)
  rw [heq]
  exact congrArg Identity.id hidentity

namespace Sound

/-- A pipeline is changed, and its nodes are sound as before. -/
theorem setPipeline (h : g.Sound) (hp : g.pipeline? pipeline = some p)
    (hidentity : p'.identity = p.identity) (hextra : p'.extra = p.extra)
    (hnodes : ∀ m ∈ p'.nodes, m.Sound g.actions) {log : Log}
    (hfollows : (g.setPipeline pipeline p').Follows log) : (g.setPipeline pipeline p').Sound := by
  have hrecord : Record.Encodable PipelineRecord.keys p'.identity p'.extra := by
    rw [hidentity, hextra]
    exact (h.pipelines p (ObjectMap.mem_of_get? hp).1).record
  exact { h with
    pipelinesConsistent := consistent_setPipeline h.pipelinesConsistent hp hidentity
    pipelines := pipelines_setPipeline h.pipelines ⟨hrecord, hnodes⟩
    graphs := ⟨log, hfollows⟩ }

/-- A node is added. -/
theorem insertNode (h : g.Sound) (hp : g.pipeline? pipeline = some p) {n : Node} {r : NodeRef}
    (hins : p.insertNode n = .ok (r, p')) (hn : n.Sound g.actions)
    (hg : g' = { g.setPipeline pipeline p' with
      conditionalIds := g'.conditionalIds, tableIds := g'.tableIds }) {log : Log}
    (hfollows : g'.Follows log) : g'.Sound := by
  have hmem := (ObjectMap.mem_of_get? hp).1
  obtain ⟨glog, hglog⟩ := h.graphs
  obtain ⟨seat, hseat⟩ := hglog p hmem
  have hnodes : ∀ m ∈ p'.nodes, m.Sound g.actions := by
    intro m hm
    rcases (Pipeline.mem_nodes_insertNode_iff hseat.slots hins).mp hm with rfl | hm
    · exact hn
    · exact (h.pipelines p hmem).nodes m hm
  have hfollows' : (g.setPipeline pipeline p').Follows log := hfollows.congr (by rw [hg])
  have hsound := h.setPipeline hp (Pipeline.identity_insertNode hins)
    (Pipeline.extra_insertNode hins) hnodes hfollows'
  rw [hg]
  exact { hsound with }

end Sound

end Program

end LiveSwitch
