import LiveSwitch.Proofs.Document.Loading
import LiveSwitch.Proofs.Document.Wiring
import LiveSwitch.Proofs.Pipeline.Packed
import LiveSwitch.Proofs.Plan.Sound

/-!
# Loaded programs are sound

The loader checks just what soundness asks for.  While it puts a pipeline together, the nodes
of that pipeline stand in one row of slots, so what is known about it is a list of nodes.

## Main definitions

* `Loader.usedIds` — the ids that the loader has seen.
* `Loader.Holds` — a loader and a pipeline in the making are sound so far.
* `Loader.KeptByLinks` — a property that nodes keep when their edges are set.

## Main results

* `Calculation.ofRecord_eq_ok`, `Action.ofRecord_eq_ok`, `Table.ofRecord_eq_ok`,
  `Loader.conditionalOf_eq_ok` — when a record is accepted.
* `Program.sound_ofDocument` — a loaded program is sound.
* `Program.nodeIds_ofDocument` — its nodes have ids of their own.
-/

namespace LiveSwitch

open Json

/-! ### Records that are accepted -/

theorem Calculation.ofRecord_eq_ok {layout : Layout} {r : CalculationRecord} {c : Calculation} :
    ofRecord layout r = .ok c ↔ ∃ algorithm inputs,
      HashAlgorithm.ofName? r.algorithm = some algorithm ∧
      r.input.mapM (decodeInput layout r.identity.name) = .ok inputs ∧
      c = { identity := r.identity, algorithm, inputs, inputJson := r.input,
            extra := r.extra } := by
  rw [ofRecord]
  cases HashAlgorithm.ofName? r.algorithm with
  | none => exact ⟨nofun, by rintro ⟨_, _, h, -⟩; cases h⟩
  | some algorithm =>
    dsimp only
    rw [bind_eq_ok]
    constructor
    · rintro ⟨inputs, hinputs, h⟩
      exact ⟨algorithm, inputs, rfl, hinputs, (pure_eq_ok.mp h).symm⟩
    · rintro ⟨_, inputs, ha, hinputs, rfl⟩
      cases ha
      exact ⟨inputs, hinputs, rfl⟩

theorem Action.ofRecord_eq_ok {r : ActionRecord} {a : Action} :
    ofRecord r = .ok a ↔ ∃ primitives,
      r.primitives.mapM (Primitive.decode r.identity.name) = .ok primitives ∧
      a = { identity := r.identity, parameters := r.parameters, primitives,
            primitivesJson := r.primitives, extra := r.extra } := by
  rw [ofRecord, bind_eq_ok]
  exact exists_congr fun _ => and_congr_right fun _ => pure_eq_ok.trans eq_comm

theorem DefaultEntry.ofRecord_eq_ok {table : String} {r : DefaultRecord} {d : DefaultEntry} :
    ofRecord table r = .ok d ↔ ∃ data, r.data.mapM (decodeWord table) = .ok data ∧
      d = { actionId := r.actionId, data, extra := r.extra } := by
  rw [ofRecord, bind_eq_ok]
  exact exists_congr fun _ => and_congr_right fun _ => pure_eq_ok.trans eq_comm

theorem Table.ofRecord_eq_ok {r : TableRecord} {t : Table} :
    ofRecord r = .ok t ↔ ∃ keyFields default?,
      r.key.mapM (decodeKey r.identity.name) = .ok keyFields ∧
      r.default?.mapM (DefaultEntry.ofRecord r.identity.name) = .ok default? ∧
      t = { identity := r.identity, matchType := r.matchType, keyFields, keyJson := r.key,
            actionIds := r.actionIds, default?, extra := r.extra } := by
  rw [ofRecord, bind_eq_ok]
  simp only [bind_eq_ok, pure_eq_ok]
  constructor
  · rintro ⟨keyFields, hkey, default?, hdefault, rfl⟩
    exact ⟨keyFields, default?, hkey, hdefault, rfl⟩
  · rintro ⟨keyFields, default?, hkey, hdefault, rfl⟩
    exact ⟨keyFields, hkey, default?, hdefault, rfl⟩

theorem Condition.decode_eq_ok {v : Value} {d : Condition} :
    decode v = .ok d ↔ Expr.decode v = .ok d.expr ∧ d.json = v := by
  rw [decode, bind_eq_ok]
  constructor
  · rintro ⟨e, he, h⟩
    cases h
    exact ⟨he, rfl⟩
  · rintro ⟨he, rfl⟩
    exact ⟨d.expr, he, rfl⟩

theorem ActionTable.insert_eq_ok {t t' : ActionTable} {a : Action} : t.insert a = .ok t' ↔
    t.get? a.identity.id = none ∧
      t' = { actions := ObjectMap.place a t.actions, ids := t.ids.observe a.identity.id } := by
  rw [insert]
  cases h : t.get? a.identity.id with
  | none => simp [eq_comm]
  | some b => simp

theorem ActionTable.Counted.insert {t t' : ActionTable} (h : t.Counted) {a : Action}
    (hins : t.insert a = .ok t') : t'.Counted := by
  obtain ⟨-, rfl⟩ := insert_eq_ok.mp hins
  intro hmax b hb
  have ha : a.identity.id < maxId := hmax a (ObjectMap.mem_place.mpr (Or.inl rfl))
  rcases ObjectMap.mem_place.mp hb with rfl | hb
  · exact t.ids.lt_observe ha
  · have hlt := h (fun c hc => hmax c (ObjectMap.mem_place.mpr (Or.inr hc))) b hb
    exact Int.lt_of_lt_of_le hlt (t.ids.le_observe ha)

/-! ### Nodes of a record -/

theorem Table.sound_ofRecord {actions : ActionTable} {r : TableRecord} {t : Table}
    (h : ofRecord r = .ok t) (hr : r.Encodable)
    (hdefault : ∀ d ∈ r.default?, Identity.validId d.actionId)
    (hactions : ∀ id ∈ r.actionIds, (actions.get? id).isSome) : t.Sound actions := by
  obtain ⟨keyFields, default?, hkey, hd, rfl⟩ := ofRecord_eq_ok.mp h
  refine ⟨hr.record, hkey, hactions, nofun, nofun, ?_⟩
  rintro d rfl
  rw [option_mapM_eq_ok] at hd
  cases hrd : r.default? with
  | none => rw [hrd] at hd; cases hd
  | some d' =>
    rw [hrd] at hd
    obtain ⟨hd⟩ := hd
    obtain ⟨data, -, rfl⟩ := DefaultEntry.ofRecord_eq_ok.mp hd
    exact ⟨hr.default d' hrd, Or.inl (hdefault d' hrd)⟩

theorem Conditional.sound_conditionalOf {r : ConditionalRecord} {c : Conditional}
    (h : Loader.conditionalOf r = .ok c) (hr : r.Encodable) : c.Sound := by
  obtain ⟨condition?, hcondition, -, rfl⟩ := Loader.conditionalOf_eq_ok.mp h
  refine ⟨hr.record, ?_⟩
  rintro d rfl
  rw [option_mapM_eq_ok] at hcondition
  cases hrv : r.expression? with
  | none => rw [hrv] at hcondition; cases hcondition
  | some v =>
    rw [hrv] at hcondition
    obtain ⟨hd⟩ := hcondition
    obtain ⟨he, rfl⟩ := Condition.decode_eq_ok.mp hd
    exact hd

/-! ### Outlines -/

/-- What stays of a node when its edges change. -/
def Node.outline (n : Node) : (Identity × Bool) × List Int :=
  (n.tag, match n with
    | conditional _ => []
    | table t => t.actionIds)

theorem Node.outline_setEdge (q : Port) (e : Edge) (n : Node) :
    (n.setEdge q e).outline = n.outline := by
  cases n with
  | conditional c => cases q with
    | branch b => cases b <;> rfl
    | action | hit | miss | base => rfl
  | table t => cases q <;> rfl

/-- The outline of the table of a record. -/
def TableRecord.outline (r : TableRecord) : (Identity × Bool) × List Int :=
  ((r.identity, true), r.actionIds)

/-- The outline of the conditional of a record. -/
def ConditionalRecord.outline (r : ConditionalRecord) : (Identity × Bool) × List Int :=
  ((r.identity, false), [])

/-- The outlines of the nodes of a record. -/
def PipelineRecord.outlines (r : PipelineRecord) : List ((Identity × Bool) × List Int) :=
  r.tables.map TableRecord.outline ++ r.conditionals.map ConditionalRecord.outline

/-! ### A pipeline in the making -/

namespace Loader

/-- The ids of tables or of conditionals that the loader has seen. -/
def usedIds (l : Loader) (table : Bool) : List Int :=
  if table then l.tableIds else l.conditionalIds

/-- A node of a loaded pipeline, or of the one in the making. -/
def HasNode (l : Loader) (P : String) (ns : List Node) (Q : String) (x : Identity × Bool) : Prop :=
  l.program.HasNode Q x ∨ (Q = P ∧ ∃ n ∈ ns, n.tag = x)

/-- A loader is sound so far, and so is the pipeline called `P` with the nodes `ns`.  It has seen
the ids of all nodes, and as long as these stay below the largest id, the counters are ahead of
them. -/
structure Holds (l : Loader) (P : String) (ns : List Node) : Prop where
  objects : l.program.SoundObjects
  nodes : ∀ n ∈ ns, n.Sound l.program.actions
  ids : UniqueIds (l.HasNode P ns)
  used : ∀ b id, id ∈ l.usedIds b ↔ ∃ Q x, l.HasNode P ns Q x ∧ x.2 = b ∧ x.1.id = id
  below : ∀ b, (∀ id ∈ l.usedIds b, id < maxId) → ∀ id ∈ l.usedIds b, id < l.program.nextNode b

variable {l l' : Loader} {p p' : Pipeline} {P : String} {ns : List Node}

/-- What is known of the ids depends on the nodes and on the ids seen. -/
theorem Holds.congr (h : l.Holds P ns) {program : Program} {store : Store} {P' : String}
    {ns' : List Node} (hobjects : program.SoundObjects) (hns : ∀ n ∈ ns', n.Sound program.actions)
    (hnext : program.nextNode = l.program.nextNode)
    (hHas : ∀ Q x, HasNode { l with program, store } P' ns' Q x ↔ l.HasNode P ns Q x) :
    Holds { l with program, store } P' ns' where
  objects := hobjects
  nodes := hns
  ids := h.ids.mono fun Q x hx => (hHas Q x).mp hx
  used b id := by
    simp only [hHas]
    exact h.used b id
  below b := by
    show _ → ∀ id ∈ l.usedIds b, id < program.nextNode b
    rw [hnext]
    exact h.below b

/-- A node is added under an id that was not seen before. -/
theorem Holds.insert (h : l.Holds P ns) {n : Node} {tables conditionals : IdCounter}
    {tableIds conditionalIds : List Int} (hn : n.Sound l.program.actions)
    (hid : n.identity.id ∉ l.usedIds n.tag.2)
    (hl' : l' = { l with
      program := { l.program with tableIds := tables, conditionalIds := conditionals }
      tableIds, conditionalIds })
    (hused : ∀ b, l'.usedIds b =
      if b = n.tag.2 then n.identity.id :: l.usedIds b else l.usedIds b)
    (hnext : ∀ b, l'.program.nextNode b = if b = n.tag.2
      then (IdCounter.observe ⟨l.program.nextNode b⟩ n.identity.id).next
      else l.program.nextNode b) : l'.Holds P (ns ++ [n]) := by
  have hHas : ∀ Q x, l'.HasNode P (ns ++ [n]) Q x ↔ (Q = P ∧ x = n.tag) ∨ l.HasNode P ns Q x := by
    intro Q x
    rw [hl', @eq_comm _ x]
    simp only [HasNode, List.mem_append, List.mem_singleton, or_and_right, exists_or,
      exists_eq_left, and_or_left]
    exact or_assoc.symm.trans or_comm
  refine ⟨?_, ?_, ?_, fun b id => ?_, fun b hmax id hmem => ?_⟩
  · rw [hl']
    exact { h.objects with }
  · rw [hl']
    intro m hm
    rcases List.mem_append.mp hm with hm | hm
    · exact h.nodes m hm
    · rw [List.mem_singleton.mp hm]
      exact hn
  · -- all ids of nodes of the kind were seen, and this one was not
    refine h.ids.insert (fun Q x hx => (hHas Q x).mp hx) fun Q x hx hkind heq => ?_
    exact hid ((h.used _ _).mpr ⟨Q, x, hx, hkind, heq⟩)
  · have hold := h.used b id
    simp only [hHas, or_and_right, exists_or]
    rw [hused, ← hold]
    by_cases hb : b = n.tag.2
    · rw [if_pos hb, List.mem_cons, hb]
      exact or_congr_left ⟨fun heq => ⟨P, n.tag, ⟨rfl, rfl⟩, rfl, heq.symm⟩,
        by rintro ⟨Q, x, ⟨-, rfl⟩, -, rfl⟩; rfl⟩
    · rw [if_neg hb]
      refine (or_iff_right ?_).symm
      rintro ⟨Q, x, ⟨-, rfl⟩, heq, -⟩
      exact hb heq.symm
  · rw [hused] at hmax hmem
    rw [hnext]
    by_cases hb : b = n.tag.2
    · rw [if_pos hb] at hmax hmem ⊢
      rw [List.forall_mem_cons] at hmax
      rcases List.mem_cons.mp hmem with rfl | hmem
      · exact IdCounter.lt_observe _ hmax.1
      · exact Int.lt_of_lt_of_le (h.below b hmax.2 id hmem) (IdCounter.le_observe _ hmax.1)
    · rw [if_neg hb] at hmax hmem ⊢
      exact h.below b hmax id hmem

theorem holds_addTable {r : TableRecord} (h : l.addTable p r = .ok (l', p')) (hp : p.Packed ns)
    (hl : l.Holds P ns) (hr : r.Encodable)
    (hdefault : ∀ d ∈ r.default?, Identity.validId d.actionId) :
    ∃ t : Table, t.identity = r.identity ∧ t.actionIds = r.actionIds ∧
      p'.Packed (ns ++ [.table t]) ∧ l'.Holds P (ns ++ [.table t]) := by
  obtain ⟨t, ref, hid, hactions, ht, hins, rfl⟩ := addTable_eq_ok.mp h
  have hsound : t.Sound l.program.actions := Table.sound_ofRecord ht hr hdefault hactions
  have hidentity := Table.identity_ofRecord ht
  have hids : t.actionIds = r.actionIds := by
    obtain ⟨_, _, -, -, rfl⟩ := Table.ofRecord_eq_ok.mp ht
    rfl
  refine ⟨t, hidentity, hids, hp.of_insertNode hins, ?_⟩
  have hid' : (Node.table t).identity.id = r.identity.id := congrArg Identity.id hidentity
  refine hl.insert (n := .table t) hsound (hid' ▸ hid) rfl ?_ ?_
  · rintro (_ | _)
    · rfl
    · rw [hid']
      rfl
  · rintro (_ | _)
    · rfl
    · rw [hid']
      rfl

theorem holds_addConditional {r : ConditionalRecord} (h : l.addConditional p r = .ok (l', p'))
    (hp : p.Packed ns) (hl : l.Holds P ns) (hr : r.Encodable) :
    ∃ c : Conditional, c.identity = r.identity ∧ p'.Packed (ns ++ [.conditional c]) ∧
      l'.Holds P (ns ++ [.conditional c]) := by
  obtain ⟨c, ref, hid, hc, hins, rfl⟩ := addConditional_eq_ok.mp h
  have hsound : c.Sound := Conditional.sound_conditionalOf hc hr
  have hidentity : c.identity = r.identity := by
    obtain ⟨_, -, -, rfl⟩ := conditionalOf_eq_ok.mp hc
    rfl
  refine ⟨c, hidentity, hp.of_insertNode hins, ?_⟩
  have hid' : (Node.conditional c).identity.id = r.identity.id := congrArg Identity.id hidentity
  refine hl.insert (n := .conditional c) hsound (hid' ▸ hid) rfl ?_ ?_
  · rintro (_ | _)
    · rw [hid']
      rfl
    · rfl
  · rintro (_ | _)
    · rw [hid']
      rfl
    · rfl

/-! ### Edges of a pipeline in the making -/

theorem mem_of_nextPort? {g : Program} {ids : List Int} {key : String} {id : Int}
    (h : nextPort? g ids key = some (.action id)) : id ∈ ids := by
  unfold nextPort? at h
  split at h
  · cases h
  · split at h
    · cases h
    · obtain ⟨i, hi, heq⟩ := Option.map_eq_some_iff.mp h
      cases heq
      exact List.mem_of_find?_eq_some hi

/-- A property that a node keeps when an edge is set that its record can name. -/
def KeptByLinks (g : Program) (P : Node → Prop) : Prop :=
  ∀ {n : Node} {q : Port} (e : Edge), P n →
    (∀ id, q = .action id → ∃ key, nextPort? g n.outline.2 key = some (.action id)) →
    P (n.setEdge q e)

theorem keptByLinks_sound (g : Program) (actions : ActionTable) :
    KeptByLinks g (·.Sound actions) := by
  intro n q e hn hq
  cases n with
  | conditional c => exact Conditional.Sound.setEdge hn q e
  | table t =>
    refine Table.Sound.setEdge hn e fun id hid => ?_
    obtain ⟨key, hkey⟩ := hq id hid
    exact mem_of_nextPort? hkey

section

variable {g : Program} {K : Node → Prop}

theorem keeps_linkNext (hK : KeptByLinks g K) {r : TableRecord} {nexts : Object} {t t' : Table}
    (h : nexts.foldlM (linkNext g p r) t = .ok t') (ht : K (.table t))
    (hids : t.actionIds = r.actionIds) :
    K (.table t') ∧ (Node.table t').outline = (Node.table t).outline := by
  refine (foldlM_induction (P := fun u : Table => K (.table u) ∧
    (Node.table u).outline = (Node.table t).outline) ?_ ⟨ht, rfl⟩ h)
  rintro next - u u' ⟨hu, houtline⟩ hstep
  obtain ⟨e, q, -, hq, -, hset⟩ := linkNext_ok hstep
  have hactions : u.actionIds = r.actionIds := (congrArg Prod.snd houtline).trans hids
  have hK' : K ((Node.table u).setEdge q e) := by
    refine hK e hu ?_
    rintro id rfl
    refine ⟨next.1, ?_⟩
    show nextPort? g u.actionIds next.1 = _
    rw [hactions]
    exact hq
  rw [hset]
  refine ⟨hK', ?_⟩
  rw [Node.outline_setEdge]
  exact houtline

theorem keeps_linkTable (hK : KeptByLinks g K) {r : TableRecord} (h : linkTable g p r = .ok p')
    (hp : p.Packed ns) (hns : ∀ n ∈ ns, K n) (hr : r.outline ∈ ns.map Node.outline) :
    ∃ ns', p'.Packed ns' ∧ ns'.map Node.outline = ns.map Node.outline ∧ ∀ n ∈ ns', K n := by
  obtain ⟨baseNext, t, t', -, ht, hnext, rfl⟩ := linkTable_eq_ok.mp h
  -- the table of the record is the one that was added for it
  obtain ⟨n, hn, houtline⟩ := List.mem_map.mp hr
  have hname : n.name = r.identity.name :=
    congrArg (fun x : (Identity × Bool) × List Int => x.1.1.name) houtline
  have hnode := hp.node? hn
  rw [hname, Pipeline.node?_of_table? ht, Option.some.injEq] at hnode
  subst hnode
  have hids : t.actionIds = r.actionIds := congrArg Prod.snd houtline
  have hbase : K (.table { t with baseNext }) := hK (q := .base) baseNext (hns _ hn) nofun
  obtain ⟨hK', houtline'⟩ := keeps_linkNext hK hnext hbase hids
  have hself : ∀ m ∈ ns, m.name = r.identity.name → m = .table t := by
    intro m hm hmname
    have hnode := hp.node? hm
    rw [hmname, Pipeline.node?_of_table? ht] at hnode
    exact (Option.some.inj hnode).symm
  have hname' : t'.identity.name = r.identity.name := by
    have htag := congrArg (fun x : (Identity × Bool) × List Int => x.1.1.name) houtline'
    exact htag.trans hname
  refine ⟨_, hp.modify ?_, ?_, ?_⟩
  · intro m hm hmname
    rw [hself m hm hmname]
    exact hname'.trans hname.symm
  · rw [List.map_map]
    refine List.map_congr_left fun m hm => ?_
    rw [Function.comp_apply]
    split
    case isTrue hmname =>
      rw [hself m hm hmname]
      exact houtline'
    case isFalse => rfl
  · intro m hm
    obtain ⟨m₀, hm₀, rfl⟩ := List.mem_map.mp hm
    split
    case isTrue hmname =>
      rw [hself m₀ hm₀ hmname]
      exact hK'
    case isFalse => exact hns m₀ hm₀

theorem keeps_linkConditional (hK : KeptByLinks g K) {r : ConditionalRecord}
    (h : linkConditional p r = .ok p') (hp : p.Packed ns) (hns : ∀ n ∈ ns, K n) :
    ∃ ns', p'.Packed ns' ∧ ns'.map Node.outline = ns.map Node.outline ∧ ∀ n ∈ ns', K n := by
  obtain ⟨trueNext, falseNext, -, -, rfl⟩ := linkConditional_eq_ok.mp h
  refine ⟨_, hp.modify ?_, ?_, ?_⟩
  · intro m _ _
    cases m <;> rfl
  · rw [List.map_map]
    refine List.map_congr_left fun m _ => ?_
    rw [Function.comp_apply]
    split
    · cases m <;> rfl
    · rfl
  · intro m hm
    obtain ⟨m₀, hm₀, rfl⟩ := List.mem_map.mp hm
    have hm₀' := hns m₀ hm₀
    split
    · cases m₀ with
      | conditional c =>
        have htrue := hK (q := .branch .onTrue) trueNext hm₀' nofun
        exact hK (q := .branch .onFalse) falseNext htrue nofun
      | table t => exact hm₀'
    · exact hm₀'

/-- What a fold over records keeps of the nodes of a pipeline. -/
theorem keeps_links {α : Type} {f : Pipeline → α → Except LoadError Pipeline} {records : List α}
    {outlines : List ((Identity × Bool) × List Int)}
    (hf : ∀ r ∈ records, ∀ p p' ns, f p r = .ok p' → p.Packed ns → (∀ n ∈ ns, K n) →
      ns.map Node.outline = outlines →
      ∃ ns', p'.Packed ns' ∧ ns'.map Node.outline = ns.map Node.outline ∧ ∀ n ∈ ns', K n)
    (h : records.foldlM f p = .ok p') (hp : p.Packed ns) (hns : ∀ n ∈ ns, K n)
    (houtlines : ns.map Node.outline = outlines) :
    ∃ ns', p'.Packed ns' ∧ ns'.map Node.outline = outlines ∧ ∀ n ∈ ns', K n := by
  refine foldlM_induction (P := fun p => ∃ ns, p.Packed ns ∧ ns.map Node.outline = outlines ∧
    ∀ n ∈ ns, K n) ?_ ⟨ns, hp, houtlines, hns⟩ h
  rintro r hr p p' ⟨ns, hp, houtlines, hns⟩ hstep
  obtain ⟨ns', hp', houtlines', hns'⟩ := hf r hr p p' ns hstep hp hns houtlines
  exact ⟨ns', hp', houtlines'.trans houtlines, hns'⟩

/-- The nodes of a pipeline keep such a property when all its edges are set. -/
theorem keeps_linkNodes (hK : KeptByLinks g K) {r : PipelineRecord} {p₁ p₂ : Pipeline}
    (h₁ : r.tables.foldlM (linkTable g) p = .ok p₁)
    (h₂ : r.conditionals.foldlM linkConditional p₁ = .ok p₂) (hp : p.Packed ns)
    (hns : ∀ n ∈ ns, K n) (houtline : ns.map Node.outline =
      r.tables.map TableRecord.outline ++ r.conditionals.map ConditionalRecord.outline) :
    ∃ ns', p₂.Packed ns' ∧ ns'.map Node.outline = ns.map Node.outline ∧ ∀ n ∈ ns', K n := by
  obtain ⟨ns₁, hp₁, hout₁, hns₁⟩ := keeps_links
    (fun t ht p p' ns hstep hp hns hout => keeps_linkTable hK hstep hp hns (by
      rw [hout, houtline]
      exact List.mem_append_left _ (List.mem_map_of_mem ht)))
    h₁ hp hns rfl
  exact keeps_links (fun c _ p p' ns hstep hp hns _ => keeps_linkConditional hK hstep hp hns)
    h₂ hp₁ hns₁ hout₁

end

/-! ### Pipelines -/

/-- What is known of the nodes of a pipeline in the making does not depend on their edges. -/
theorem Holds.of_outline (h : l.Holds P ns) {ns' : List Node}
    (houtline : ns'.map Node.outline = ns.map Node.outline)
    (hns : ∀ n ∈ ns', n.Sound l.program.actions) : l.Holds P ns' := by
  have htags : ns'.map Node.tag = ns.map Node.tag := by
    have hfst := congrArg (List.map Prod.fst) houtline
    rwa [List.map_map, List.map_map] at hfst
  refine h.congr h.objects hns rfl fun Q x => ?_
  have hmem : (∃ n ∈ ns', n.tag = x) ↔ ∃ n ∈ ns, n.tag = x := by
    rw [← List.mem_map, htags, List.mem_map]
  exact or_congr_right (and_congr_right fun _ => hmem)

/-- Records are added one by one, each with a node of its outline. -/
theorem holds_addNodes {α : Type}
    {add : Loader → Pipeline → α → Except LoadError (Loader × Pipeline)}
    {outline : α → (Identity × Bool) × List Int} {records : List α}
    (hadd : ∀ r ∈ records, ∀ {l l' : Loader} {p p' ns}, add l p r = .ok (l', p') → p.Packed ns →
      l.Holds P ns → ∃ n, n.outline = outline r ∧ p'.Packed (ns ++ [n]) ∧ l'.Holds P (ns ++ [n]))
    (h : records.foldlM (fun (l, p) r => add l p r) (l, p) = .ok (l', p'))
    (hp : p.Packed ns) (hl : l.Holds P ns) : ∃ ns', p'.Packed ns' ∧ l'.Holds P ns' ∧
      ns'.map Node.outline = ns.map Node.outline ++ records.map outline := by
  induction records generalizing l p ns with
  | nil =>
    rw [foldlM_nil_eq_ok] at h
    cases h
    exact ⟨ns, hp, hl, (List.append_nil _).symm⟩
  | cons r records ih =>
    obtain ⟨⟨l₁, p₁⟩, hstep, h⟩ := foldlM_cons_eq_ok.mp h
    rw [List.forall_mem_cons] at hadd
    obtain ⟨n, hn, hp₁, hl₁⟩ := hadd.1 hstep hp hl
    obtain ⟨ns', hp', hl', hout⟩ := ih hadd.2 h hp₁ hl₁
    refine ⟨ns', hp', hl', hout.trans ?_⟩
    rw [List.map_append, List.map_singleton, hn, List.append_assoc, List.map_cons]
    rfl

theorem holds_addTables {records : List TableRecord}
    (h : records.foldlM (fun (l, p) t => addTable l p t) (l, p) = .ok (l', p'))
    (hp : p.Packed ns) (hl : l.Holds P ns) (hrecords : ∀ r ∈ records, r.Encodable)
    (hdefault : ∀ r ∈ records, ∀ d ∈ r.default?, Identity.validId d.actionId) :
    ∃ ns', p'.Packed ns' ∧ l'.Holds P ns' ∧
      ns'.map Node.outline = ns.map Node.outline ++ records.map TableRecord.outline := by
  refine holds_addNodes (fun r hr l l' p p' ns h hp hl => ?_) h hp hl
  obtain ⟨t, hidentity, hids, hp', hl'⟩ := holds_addTable h hp hl (hrecords r hr) (hdefault r hr)
  refine ⟨.table t, ?_, hp', hl'⟩
  show ((t.identity, true), t.actionIds) = ((r.identity, true), r.actionIds)
  rw [hidentity, hids]

theorem holds_addConditionals {records : List ConditionalRecord}
    (h : records.foldlM (fun (l, p) c => addConditional l p c) (l, p) = .ok (l', p'))
    (hp : p.Packed ns) (hl : l.Holds P ns) (hrecords : ∀ r ∈ records, r.Encodable) :
    ∃ ns', p'.Packed ns' ∧ l'.Holds P ns' ∧
      ns'.map Node.outline = ns.map Node.outline ++ records.map ConditionalRecord.outline := by
  refine holds_addNodes (fun r hr l l' p p' ns h hp hl => ?_) h hp hl
  obtain ⟨c, hidentity, hp', hl'⟩ := holds_addConditional h hp hl (hrecords r hr)
  refine ⟨.conditional c, ?_, hp', hl'⟩
  show ((c.identity, false), []) = ((r.identity, false), [])
  rw [hidentity]

theorem Holds.nil (h : l.Holds P []) (Q : String) : l.Holds Q [] := by
  refine h.congr h.objects (List.forall_mem_nil _) rfl fun R x => or_congr_right ?_
  simp only [List.not_mem_nil, false_and, exists_false, and_false]

/-- The pipeline that was put together joins the others. -/
theorem Holds.insert_pipeline (h : l.Holds P ns) {pipelines : ObjectMap Pipeline}
    (hins : l.program.pipelines.insert p = .ok pipelines) (hname : p.name = P)
    (hnodes : p.nodes = ns) (hrecord : Record.Encodable PipelineRecord.keys p.identity p.extra) :
    Holds { l with program := { l.program with pipelines } } P [] := by
  have hconsistent := h.objects.pipelinesConsistent.insert hins
  obtain ⟨-, -, rfl⟩ := ObjectMap.insert_eq_ok.mp hins
  refine h.congr ?_ (List.forall_mem_nil _) rfl fun Q x => ?_
  · refine { h.objects with
      pipelinesConsistent := hconsistent
      pipelines := fun q hq => ?_ }
    rcases ObjectMap.mem_place.mp hq with rfl | hq
    · exact ⟨hrecord, hnodes ▸ h.nodes⟩
    · exact h.objects.pipelines q hq
  · simp only [HasNode, Program.HasNode, ObjectMap.mem_place, or_and_right, exists_or,
      exists_eq_left, List.not_mem_nil, false_and, exists_false, and_false, or_false]
    rw [hname, hnodes, or_comm, @eq_comm _ P]

/-- A pipeline is added: its nodes have the outlines of its record, and those of the others stay. -/
theorem holds_addPipeline {r : PipelineRecord} (h : l.addPipeline r = .ok l')
    (hl : l.Holds P []) (hr : r.Encodable)
    (hdefault : ∀ t ∈ r.tables, ∀ d ∈ t.default?, Identity.validId d.actionId) :
    l'.Holds P [] ∧ (∀ x ∈ r.outlines, l'.program.HasNode r.identity.name x.1) ∧
      ∀ Q x, l.program.HasNode Q x → l'.program.HasNode Q x := by
  obtain ⟨l₁, p₁, l₂, p₂, p₃, p₄, init, pipelines, h₁, h₂, h₃, h₄, -, hins, rfl⟩ :=
    addPipeline_eq_ok.mp h
  obtain ⟨-, hprogram, hidentity, hextra⟩ := addNodes_keep h₁ h₂
  obtain ⟨hidentity', hextra'⟩ := linkNodes_keep h₃ h₄
  have hempty := Pipeline.Packed.empty r.identity r.extra
  obtain ⟨ns₁, hp₁, hl₁, hout₁⟩ :=
    holds_addTables h₁ hempty (hl.nil r.identity.name) hr.tables hdefault
  obtain ⟨ns₂, hp₂, hl₂, hout₂⟩ := holds_addConditionals h₂ hp₁ hl₁ hr.conditionals
  have houtline : ns₂.map Node.outline = r.outlines := by
    rw [hout₂, hout₁, List.map_nil, List.nil_append]
    rfl
  obtain ⟨ns₄, hp₄, hout₄, hns₄⟩ :=
    keeps_linkNodes (keptByLinks_sound _ _) h₃ h₄ hp₂ hl₂.nodes houtline
  have hl₄ := hl₂.of_outline hout₄ hns₄
  have hid : p₄.identity = r.identity := hidentity'.trans hidentity
  refine ⟨(hl₄.insert_pipeline hins (congrArg Identity.name hid) hp₄.nodes_eq ?_).nil P, ?_, ?_⟩
  · show Record.Encodable PipelineRecord.keys p₄.identity p₄.extra
    rw [hid, hextra'.trans hextra]
    exact hr.record
  · intro x hx
    obtain ⟨-, -, rfl⟩ := ObjectMap.insert_eq_ok.mp hins
    have hmem : x ∈ ns₄.map Node.outline := by rw [hout₄, houtline]; exact hx
    obtain ⟨n, hn, rfl⟩ := List.mem_map.mp hmem
    exact ⟨_, ObjectMap.mem_place.mpr (Or.inl rfl), congrArg Identity.name hid, n,
      hp₄.nodes_eq ▸ hn, rfl⟩
  · rintro Q x ⟨q, hq, hQ, hn⟩
    obtain ⟨-, -, rfl⟩ := ObjectMap.insert_eq_ok.mp hins
    rw [hprogram]
    exact ⟨q, ObjectMap.mem_place.mpr (Or.inr hq), hQ, hn⟩

/-! ### Documents -/

theorem holds_addArray {r : ArrayRecord} (h : l.addArray r = .ok l') (hl : l.Holds P [])
    (hr : r.Encodable) : l'.Holds P [] := by
  obtain ⟨arrays, hsize, hwidth, hins, rfl⟩ := addArray_eq_ok.mp h
  have hconsistent := hl.objects.arraysConsistent.insert hins
  obtain ⟨-, -, rfl⟩ := ObjectMap.insert_eq_ok.mp hins
  refine hl.congr { hl.objects with
      arraysConsistent := hconsistent, arrays := fun a ha => ?_ }
    (List.forall_mem_nil _) rfl fun _ _ => Iff.rfl
  rcases ObjectMap.mem_place.mp ha with rfl | ha
  · refine ⟨hr.record, ?_, hwidth⟩
    show Register.validSize (Storage.zeros r.size r.bitwidth).cells.size = true
    rw [Storage.size_cells_zeros]
    exact hsize
  · exact hl.objects.arrays a ha

theorem holds_addCalculation {r : CalculationRecord} (h : l.addCalculation r = .ok l')
    (hl : l.Holds P []) (hr : r.Encodable) : l'.Holds P [] := by
  obtain ⟨c, calculations, hc, hins, rfl⟩ := addCalculation_eq_ok.mp h
  obtain ⟨algorithm, inputs, -, hinputs, rfl⟩ := Calculation.ofRecord_eq_ok.mp hc
  have hconsistent := hl.objects.calculationsConsistent.insert hins
  obtain ⟨-, -, rfl⟩ := ObjectMap.insert_eq_ok.mp hins
  refine hl.congr { hl.objects with
      calculationsConsistent := hconsistent, calculations := fun c hc => ?_ }
    (List.forall_mem_nil _) rfl fun _ _ => Iff.rfl
  rcases ObjectMap.mem_place.mp hc with rfl | hc
  · exact ⟨hr, l.program.layout, hinputs⟩
  · exact hl.objects.calculations c hc

theorem holds_addAction {r : ActionRecord} (h : l.addAction r = .ok l') (hl : l.Holds P [])
    (hr : r.Encodable) : l'.Holds P [] := by
  obtain ⟨a, actions, ha, hins, rfl⟩ := addAction_eq_ok.mp h
  obtain ⟨primitives, hprimitives, rfl⟩ := Action.ofRecord_eq_ok.mp ha
  have hins' := hins
  obtain ⟨hnone, rfl⟩ := ActionTable.insert_eq_ok.mp hins
  have hnew : ∀ b ∈ l.program.actions.actions, idOf b ≠ r.identity.id :=
    fun b hb heq => List.find?_eq_none.mp hnone b hb (beq_iff_eq.mpr heq)
  refine hl.congr { hl.objects with
      actionIds := ObjectMap.pairwise_place hl.objects.actionIds hnew
      actionsCounted := hl.objects.actionsCounted.insert hins'
      actions := fun b hb => ?_
      pipelines := fun p hp => (hl.objects.pipelines p hp).mono fun id hid => ?_ }
    (List.forall_mem_nil _) rfl fun _ _ => Iff.rfl
  · rcases ObjectMap.mem_place.mp hb with rfl | hb
    · exact ⟨hr, hprimitives⟩
    · exact hl.objects.actions b hb
  · rw [ActionTable.isSome_get?_iff] at hid ⊢
    obtain ⟨b, hb, hbid⟩ := hid
    exact ⟨b, ObjectMap.mem_place.mpr (Or.inr hb), hbid⟩

theorem holds_start (layout : Layout) (s : Store) :
    Holds { program := { layout }, store := s } P [] := by
  have hHas : ∀ Q x, ¬HasNode { program := { layout }, store := s } P [] Q x := by
    rintro Q x (⟨p, hp, -⟩ | ⟨-, n, hn, -⟩)
    · cases hp
    · cases hn
  have hused : ∀ b, Loader.usedIds { program := { layout }, store := s } b = [] := by
    rintro (_ | _) <;> rfl
  refine ⟨{
      arraysConsistent := ObjectMap.Consistent.empty
      arrays := List.forall_mem_nil _
      calculationsConsistent := ObjectMap.Consistent.empty
      calculations := List.forall_mem_nil _
      actionIds := List.Pairwise.nil
      actionsCounted := fun _ => List.forall_mem_nil _
      actions := List.forall_mem_nil _
      pipelinesConsistent := ObjectMap.Consistent.empty
      pipelines := List.forall_mem_nil _ }, List.forall_mem_nil _,
    ⟨fun hx => absurd hx (hHas _ _)⟩, fun b id => ?_, fun b _ => ?_⟩
  · rw [hused]
    exact iff_of_false List.not_mem_nil fun ⟨Q, x, hx, _⟩ => hHas Q x hx
  · rw [hused]
    exact List.forall_mem_nil _

/-- A record that is added keeps the program sound, and the declared widths. -/
theorem Adds.holds (h : l.Adds l') (hl : l.Holds P []) :
    l'.Holds P [] ∧ l'.program.layout = l.program.layout := by
  cases h with
  | array hv h =>
    refine ⟨holds_addArray h hl (ArrayRecord.encodable_of_decode hv), ?_⟩
    obtain ⟨_, -, -, -, rfl⟩ := addArray_eq_ok.mp h
    rfl
  | calculation hv h =>
    refine ⟨holds_addCalculation h hl (CalculationRecord.encodable_of_decode hv), ?_⟩
    obtain ⟨_, _, -, -, rfl⟩ := addCalculation_eq_ok.mp h
    rfl
  | action hv h =>
    refine ⟨holds_addAction h hl (ActionRecord.encodable_of_decode hv), ?_⟩
    obtain ⟨_, _, -, -, rfl⟩ := addAction_eq_ok.mp h
    rfl
  | pipeline hv h =>
    obtain ⟨hr, hdefault⟩ := PipelineRecord.encodable_of_decode hv
    refine ⟨(holds_addPipeline h hl hr hdefault).1, ?_⟩
    obtain ⟨-, hprogram⟩ := addPipeline_keep h
    rw [hprogram]

theorem Holds.adds (hl : l.Holds P []) (h : Relation.ReflTransGen Adds l l') :
    l'.Holds P [] ∧ l'.program.layout = l.program.layout := by
  induction h with
  | refl => exact ⟨hl, rfl⟩
  | tail _ hadds ih =>
    obtain ⟨hholds, hsame⟩ := hadds.holds ih.1
    exact ⟨hholds, hsame.trans ih.2⟩

/-- The nodes of all records of a section are those of pipelines. -/
theorem hasNode_addPipelines {records : List PipelineRecord}
    (h : records.foldlM addPipeline l = .ok l') (hl : l.Holds P [])
    (hrecords : ∀ r ∈ records, ∃ v, PipelineRecord.decode v = some r) :
    l'.Holds P [] ∧ (∀ Q x, l.program.HasNode Q x → l'.program.HasNode Q x) ∧
      ∀ r ∈ records, ∀ x ∈ r.outlines, l'.program.HasNode r.identity.name x.1 := by
  induction records generalizing l with
  | nil =>
    cases foldlM_nil_eq_ok.mp h
    exact ⟨hl, fun _ _ hx => hx, List.forall_mem_nil _⟩
  | cons r records ih =>
    obtain ⟨l₁, hstep, h⟩ := foldlM_cons_eq_ok.mp h
    rw [List.forall_mem_cons] at hrecords
    obtain ⟨v, hv⟩ := hrecords.1
    obtain ⟨hr, hdefault⟩ := PipelineRecord.encodable_of_decode hv
    obtain ⟨hl₁, hnew, hold⟩ := holds_addPipeline hstep hl hr hdefault
    obtain ⟨hl', hkept, hrest⟩ := ih h hl₁ hrecords.2
    refine ⟨hl', fun Q x hx => hkept Q x (hold Q x hx), List.forall_mem_cons.mpr ⟨?_, hrest⟩⟩
    exact fun x hx => hkept _ _ (hnew x hx)

end Loader

namespace Program

open Loader in
/-- A loaded program holds what a loader has put together. -/
theorem holds_ofDocument {s s' : Store} {v : Value} {g : Program}
    (h : ofDocument s v = .ok (g, s')) : ∃ (l : Loader) (layout : Layout) (root : Object),
      Layout.ofSections (root.get? "header_types") (root.get? "headers") = .ok layout ∧
      l.Holds "" [] ∧ l.program.layout = layout ∧
      g = { l.program with extra := root.without sectionKeys } := by
  obtain ⟨root, layout, l, hlayout, hl, rfl, -⟩ := adds_ofDocument h
  obtain ⟨hholds, hsame⟩ := (holds_start layout s).adds hl
  exact ⟨l, layout, root, hlayout, hholds, hsame, rfl⟩

/-- A loaded program is sound. -/
theorem sound_ofDocument {s s' : Store} {v : Value} {g : Program}
    (h : ofDocument s v = .ok (g, s')) : g.Sound := by
  have hfollows := follows_ofDocument h
  obtain ⟨l, layout, root, hlayout, hholds, hsame, rfl⟩ := holds_ofDocument h
  refine { hholds.objects with
    layout := ?_
    extra := Object.free_without _ root
    graphs := ⟨_, hfollows⟩ }
  rw [Object.get?_without (by decide), Object.get?_without (by decide), hlayout, hsame]

/-- The nodes of a loaded program have ids of their own.  As long as the ids of a kind stay below
the largest one, the counter is ahead of them. -/
theorem nodeIds_ofDocument {s s' : Store} {v : Value} {g : Program}
    (h : ofDocument s v = .ok (g, s')) : UniqueIds g.HasNode ∧
      ∀ b, (∀ P x, g.HasNode P x → x.2 = b → x.1.id < maxId) →
        ∀ P x, g.HasNode P x → x.2 = b → x.1.id < g.nextNode b := by
  obtain ⟨l, layout, root, -, hholds, -, rfl⟩ := holds_ofDocument h
  have hHas : ∀ Q x, l.HasNode "" [] Q x ↔ l.program.HasNode Q x := fun Q x =>
    or_iff_left fun ⟨_, n, hn, _⟩ => List.not_mem_nil hn
  refine ⟨hholds.ids.mono fun Q x hx => (hHas Q x).mpr hx, fun b hmax P x hx hb => ?_⟩
  refine hholds.below b (fun id hid => ?_) _
    ((hholds.used b _).mpr ⟨P, x, (hHas P x).mpr hx, hb, rfl⟩)
  obtain ⟨Q, y, hy, hyb, rfl⟩ := (hholds.used b id).mp hid
  exact hmax Q y ((hHas Q y).mp hy) hyb

end Program

end LiveSwitch
