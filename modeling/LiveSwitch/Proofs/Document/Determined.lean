import LiveSwitch.Document.Builder
import LiveSwitch.Proofs.Document.Loaded
import LiveSwitch.Proofs.Program.Mirroring

/-!
# Programs with one document

Two programs that were just loaded and have the same document may differ in the slots of their
nodes and the storages of their arrays, as their documents may have listed the same objects in
another order.  They have the same numbers of objects, give the same ids to new ones, and mirror
each other, so that they do the same to every sequence of packets.  Only what the counters are once
they have come round depends on the order.

## Main definitions

* `Records.count` — the number of objects of a kind that a document shows.

## Main results

* `Table.get?_nextTables` — what stands under a key of the next nodes of a loaded table.
* `Program.Loaded.records_eq` — programs with one document have the same records.
* `Program.count_eq_records`, `Program.Loaded.nextId_eq` — numbers and next ids.
* `Program.Loaded.mirrors` — loaded programs with one document mirror each other.
* `Program.document_faithful` — a document that was rendered is loaded into a program that is the
  same in all these ways.
* `Program.reload_changes_next_id` — a counter that is another one when it has come round.
-/

namespace LiveSwitch

open Json

/-! ### The next nodes of a loaded table -/

namespace Loader

variable {g : Program} {ids : List Int} {key : String}

/-- The key of an action's edge is the name of the action, and none of the two other keys. -/
theorem nextPort?_action {id : Int} (h : nextPort? g ids key = some (.action id)) :
    ∃ a, g.action? id = some a ∧ a.name = key := by
  unfold nextPort? at h
  split at h
  · cases h
  · split at h
    · cases h
    · obtain ⟨i, hi, heq⟩ := Option.map_eq_some_iff.mp h
      cases heq
      exact Program.exists_of_actionNamed? hi

theorem nextPort?_hit (g : Program) (ids : List Int) : nextPort? g ids hitKey = some .hit := rfl

theorem nextPort?_miss (g : Program) (ids : List Int) : nextPort? g ids missKey = some .miss := rfl

theorem nextPort?_cases {q : Port} (h : nextPort? g ids key = some q) :
    (key = hitKey ∧ q = .hit) ∨ (key = missKey ∧ q = .miss) ∨ ∃ id, q = .action id := by
  unfold nextPort? at h
  split at h
  case isTrue hkey => exact Or.inl ⟨hkey, (Option.some.inj h).symm⟩
  case isFalse =>
    split at h
    case isTrue hkey => exact Or.inr (Or.inl ⟨hkey, (Option.some.inj h).symm⟩)
    case isFalse =>
      obtain ⟨i, -, heq⟩ := Option.map_eq_some_iff.mp h
      exact Or.inr (Or.inr ⟨i, heq.symm⟩)

end Loader

namespace Json.Object

/-- A field of a list is found when its key has one value only. -/
theorem get?_ofList {fields : List (String × Value)} {key : String} {v : Value}
    (h : ∀ v v', (key, v) ∈ fields → (key, v') ∈ fields → v = v') :
    (ofList fields).get? key = some v ↔ (key, v) ∈ fields := by
  constructor
  · exact fun hv => mem_of_mem_ofList (mem_of_get? hv)
  · exact fun hv => get?_insertAll_of_mem hv fun v' hv' => h v' v hv' hv

end Json.Object

namespace Table

variable {g : Program} {t : Table}

/-- Under a key stands the node that the edge leads to which the key means. -/
theorem mem_nextFields_iff (hn : (Node.table t).Loaded g) (hk : t.Keyed) (p : Pipeline)
    {key : String} {v : Value} : (key, v) ∈ t.nextFields p g.actions ↔
      ((Loader.nextPort? g t.actionIds key).bind (Node.table t).edgeAt?).map p.edgeJson =
        some v := by
  rw [mem_nextFields]
  constructor
  · rintro (⟨⟨id, e⟩, hx, a, ha, heq⟩ | ⟨e, he, heq⟩ | ⟨e, he, heq⟩)
    · have hnext : (Node.table t).edgeAt? (.action id) = some e := Assoc.lookup_of_mem hk hx
      obtain ⟨key', hkey'⟩ := hn.action id e hnext
      obtain ⟨a', ha', rfl⟩ := Loader.nextPort?_action hkey'
      have haa' : a = a' := Option.some.inj (ha.symm.trans ha')
      cases heq
      rw [haa']
      have hport : Loader.nextPort? g t.actionIds a'.name = some (.action id) := hkey'
      rw [hport, Option.bind_some, hnext, Option.map_some]
    · cases heq
      have hhit : (Node.table t).edgeAt? .hit = some e := he
      rw [Loader.nextPort?_hit, Option.bind_some, hhit, Option.map_some]
    · cases heq
      have hmiss : (Node.table t).edgeAt? .miss = some e := he
      rw [Loader.nextPort?_miss, Option.bind_some, hmiss, Option.map_some]
  · intro h
    obtain ⟨e, he, rfl⟩ := Option.map_eq_some_iff.mp h
    obtain ⟨q, hq, hedge⟩ := Option.bind_eq_some_iff.mp he
    rcases Loader.nextPort?_cases hq with ⟨rfl, rfl⟩ | ⟨rfl, rfl⟩ | ⟨id, rfl⟩
    · exact Or.inr (Or.inl ⟨e, hedge, rfl⟩)
    · exact Or.inr (Or.inr ⟨e, hedge, rfl⟩)
    · obtain ⟨a, ha, rfl⟩ := Loader.nextPort?_action hq
      exact Or.inl ⟨(id, e), Assoc.mem_of_lookup hedge, a, ha, rfl⟩

theorem get?_nextTables (hn : (Node.table t).Loaded g) (hk : t.Keyed) (p : Pipeline)
    (key : String) : (t.nextTables p g.actions).get? key =
      ((Loader.nextPort? g t.actionIds key).bind (Node.table t).edgeAt?).map p.edgeJson := by
  refine Option.ext fun v => ?_
  rw [nextTables_eq, Object.get?_ofList, mem_nextFields_iff hn hk]
  intro v v' hv hv'
  rw [mem_nextFields_iff hn hk] at hv hv'
  exact Option.some.inj (hv.symm.trans hv')

/-- All edges of a loaded table but the base edge have a key. -/
theorem exists_nextPort? (hn : (Node.table t).Loaded g) {q : Port} {e : Edge}
    (he : (Node.table t).edgeAt? q = some e) (hq : q ≠ .base) :
    ∃ key, Loader.nextPort? g t.actionIds key = some q := by
  cases q with
  | branch b => cases he
  | action id => exact hn.action id e he
  | hit => exact ⟨hitKey, rfl⟩
  | miss => exact ⟨missKey, rfl⟩
  | base => exact absurd rfl hq

end Table

/-! ### Edges -/

namespace Pipeline

variable {p p' : Pipeline}

/-- Where no edge dangles, edges with one name lead to nodes of one name. -/
theorem Intact.edgesMirror (hp : p.Intact) (hp' : p'.Intact) {place place' : Place} {e e' : Edge}
    (he : p.edgeAt? place = some e) (he' : p'.edgeAt? place' = some e')
    (hname : p.nodeName? e = p'.nodeName? e') : p.EdgesMirror p' e e' := by
  cases e with
  | none =>
    cases e' with
    | none => exact .none
    | some r' =>
      obtain ⟨n', hn'⟩ := hp' place' r' he'
      rw [nodeName?, nodeName?, Option.bind_some, hn'] at hname
      cases hname
  | some r =>
    cases e' with
    | none =>
      obtain ⟨n, hn⟩ := hp place r he
      rw [nodeName?, nodeName?, Option.bind_some, hn] at hname
      cases hname
    | some r' => exact .some hname

theorem edgeJson_injective {e e' : Edge} (h : p.edgeJson e = p'.edgeJson e') :
    p.nodeName? e = p'.nodeName? e' := by
  have hstring := congrArg Value.string? h
  rw [edgeJson, edgeJson, Loader.string?_textOrNull, Loader.string?_textOrNull] at hstring
  exact hstring

/-- The edge at a port of a node is the edge at that place. -/
theorem Named.edgeAt?_port (hp : p.Named) {n : Node} (hn : n ∈ p.nodes) {q : Port} {e : Edge}
    (he : n.edgeAt? q = some e) : p.edgeAt? (.port n.name q) = some e := by
  rw [edgeAt?, hp n hn, Option.bind_some, he]

end Pipeline

/-! ### Objects with one record -/

/-- An action is determined by its record, from which its primitives are read. -/
theorem Action.Sound.eq_of_toRecord {a a' : Action} (h : a.Sound) (h' : a'.Sound)
    (heq : a.toRecord = a'.toRecord) : a = a' := by
  obtain ⟨identity, parameters, primitives, json, extra⟩ := a
  obtain ⟨identity', parameters', primitives', json', extra'⟩ := a'
  simp only [toRecord, ActionRecord.mk.injEq] at heq
  obtain ⟨rfl, rfl, rfl, rfl⟩ := heq
  have hprimitives := h.primitives.symm.trans h'.primitives
  rw [Except.ok.injEq] at hprimitives
  rw [show primitives = primitives' from hprimitives]

/-- A calculation is determined by its record and the declared widths. -/
theorem Calculation.eq_of_toRecord {layout : Layout} {c c' : Calculation}
    (h : c.inputJson.mapM (decodeInput layout c.identity.name) = .ok c.inputs)
    (h' : c'.inputJson.mapM (decodeInput layout c'.identity.name) = .ok c'.inputs)
    (heq : c.toRecord = c'.toRecord) : c = c' := by
  obtain ⟨identity, algorithm, inputs, json, extra⟩ := c
  obtain ⟨identity', algorithm', inputs', json', extra'⟩ := c'
  simp only [toRecord, CalculationRecord.mk.injEq] at heq
  obtain ⟨rfl, rfl, halgorithm, rfl⟩ := heq
  have hname := congrArg HashAlgorithm.ofName? halgorithm
  rw [HashAlgorithm.ofName?_name, HashAlgorithm.ofName?_name, Option.some.injEq] at hname
  have hinputs := h.symm.trans h'
  rw [Except.ok.injEq] at hinputs
  rw [hname, show inputs = inputs' from hinputs]

/-- A default entry is determined by its record. -/
theorem DefaultEntry.eq_of_toRecord {d d' : DefaultEntry} (heq : d.toRecord = d'.toRecord) :
    d = d' := by
  obtain ⟨actionId, data, extra⟩ := d
  obtain ⟨actionId', data', extra'⟩ := d'
  simp only [toRecord, DefaultRecord.mk.injEq] at heq
  obtain ⟨rfl, hdata, rfl⟩ := heq
  have hread := congrArg (List.mapM (decodeWord "")) hdata
  rw [mapM_decodeWord, mapM_decodeWord, Except.ok.injEq] at hread
  rw [hread]

/-- The condition of a sound conditional is determined by its JSON. -/
theorem Conditional.Sound.condition_eq {c c' : Conditional} (h : c.Sound) (h' : c'.Sound)
    (heq : c.condition?.map Condition.json = c'.condition?.map Condition.json) :
    c.condition? = c'.condition? := by
  cases hc : c.condition? with
  | none =>
    rw [hc, Option.map_none, eq_comm, Option.map_eq_none_iff] at heq
    exact heq.symm
  | some d =>
    rw [hc, Option.map_some, eq_comm, Option.map_eq_some_iff] at heq
    obtain ⟨d', hc', hjson⟩ := heq
    have hd := h'.condition d' hc'
    rw [hjson, h.condition d hc, Except.ok.injEq] at hd
    rw [hc', hd]

/-! ### Nodes with one record -/

section

variable {g g' : Program} {p p' : Pipeline}

/-- Loaded conditionals with one record mirror each other. -/
theorem Conditional.mirrors_of_toRecord (hp : p.Intact) (hp' : p'.Intact) (hnamed : p.Named)
    (hnamed' : p'.Named) {c c' : Conditional} (hc : .conditional c ∈ p.nodes)
    (hc' : .conditional c' ∈ p'.nodes) (h : c.Sound) (h' : c'.Sound)
    (heq : c.toRecord p = c'.toRecord p') : c.Mirrors p p' c' where
  name := congrArg (fun r : ConditionalRecord => r.identity.name) heq
  condition := by
    rw [h.condition_eq h' (congrArg ConditionalRecord.expression? heq)]
  next b := by
    have he : p.edgeAt? (.port c.identity.name (.branch b)) = some (c.next b) :=
      hnamed.edgeAt?_port hc rfl
    have he' : p'.edgeAt? (.port c'.identity.name (.branch b)) = some (c'.next b) :=
      hnamed'.edgeAt?_port hc' rfl
    refine hp.edgesMirror hp' he he' ?_
    cases b with
    | onTrue => exact congrArg ConditionalRecord.trueNext? heq
    | onFalse => exact congrArg ConditionalRecord.falseNext? heq

namespace Table

variable {t t' : Table}

/-- Tables with one record have the same edges, and these lead to nodes of one name. -/
theorem edgesMirror_of_toRecord (hactions : g.actions.actions = g'.actions.actions) (hp : p.Intact)
    (hp' : p'.Intact) (hnamed : p.Named) (hnamed' : p'.Named) (ht : .table t ∈ p.nodes)
    (ht' : .table t' ∈ p'.nodes) (hn : (Node.table t).Loaded g) (hn' : (Node.table t').Loaded g')
    (hk : t.Keyed) (hk' : t'.Keyed) (heq : t.toRecord p g.actions = t'.toRecord p' g'.actions)
    (q : Port) :
    Option.Rel (p.EdgesMirror p') ((Node.table t).edgeAt? q) ((Node.table t').edgeAt? q) := by
  have hids : t.actionIds = t'.actionIds := congrArg TableRecord.actionIds heq
  have hport : ∀ key,
      Loader.nextPort? g t.actionIds key = Loader.nextPort? g' t'.actionIds key := by
    intro key
    rw [hids, Loader.nextPort?_congr hactions]
  have hedge : ∀ {q e e'}, (Node.table t).edgeAt? q = some e → (Node.table t').edgeAt? q = some e' →
      p.nodeName? e = p'.nodeName? e' → p.EdgesMirror p' e e' := fun he he' =>
    hp.edgesMirror hp' (hnamed.edgeAt?_port ht he) (hnamed'.edgeAt?_port ht' he')
  by_cases hq : q = .base
  · subst hq
    exact .some (hedge (q := .base) rfl rfl (congrArg TableRecord.baseNext? heq))
  · -- another edge stands under a key, which means the same port in both tables
    have hkey : ∀ key, Loader.nextPort? g t.actionIds key = some q →
        Option.Rel (p.EdgesMirror p') ((Node.table t).edgeAt? q) ((Node.table t').edgeAt? q) := by
      intro key hkey
      have hget := congrArg (fun r : TableRecord => r.nextTables.get? key) heq
      simp only [toRecord] at hget
      rw [get?_nextTables hn hk, get?_nextTables hn' hk', ← hport, hkey, Option.bind_some,
        Option.bind_some] at hget
      cases he : (Node.table t).edgeAt? q with
      | none =>
        rw [he, Option.map_none, eq_comm, Option.map_eq_none_iff] at hget
        rw [hget]
        exact .none
      | some e =>
        rw [he, Option.map_some, eq_comm, Option.map_eq_some_iff] at hget
        obtain ⟨e', he', hjson⟩ := hget
        rw [he']
        exact .some (hedge he he' (Pipeline.edgeJson_injective hjson.symm))
    cases he : (Node.table t).edgeAt? q with
    | some e =>
      obtain ⟨key, h⟩ := exists_nextPort? hn he hq
      exact he ▸ hkey key h
    | none =>
      cases he' : (Node.table t').edgeAt? q with
      | none => exact .none
      | some e' =>
        obtain ⟨key, h⟩ := exists_nextPort? hn' he' hq
        have hrel := hkey key ((hport key).trans h)
        rw [he, he'] at hrel
        exact hrel

theorem afterHit_eq (t : Table) (id : Int) :
    t.afterHit id = t.hitNext?.getD ((t.nextOf? id).getD t.baseNext) := by
  rw [afterHit]
  cases t.hitNext? <;> rfl

/-- Loaded tables with one record mirror each other. -/
theorem mirrors_of_toRecord {actions actions' : ActionTable}
    (hedges : ∀ q, Option.Rel (p.EdgesMirror p') ((Node.table t).edgeAt? q)
      ((Node.table t').edgeAt? q))
    (h : t.Sound actions) (h' : t'.Sound actions') (hentries : t.entries = t'.entries)
    (heq : t.toRecord p actions = t'.toRecord p' actions') : t.Mirrors p p' t' := by
  have hidentity : t.identity = t'.identity := congrArg TableRecord.identity heq
  have hkey := h'.key
  rw [← hidentity, ← show t.keyJson = t'.keyJson from congrArg TableRecord.key heq, h.key,
    Except.ok.injEq] at hkey
  have hdefault : t.default?.map DefaultEntry.toRecord = t'.default?.map DefaultEntry.toRecord :=
    congrArg TableRecord.default? heq
  have hbase : p.EdgesMirror p' t.baseNext t'.baseNext := by
    have hrel := hedges .base
    cases hrel with
    | some hbase => exact hbase
  have haction : ∀ id, p.EdgesMirror p' ((t.nextOf? id).getD t.baseNext)
      ((t'.nextOf? id).getD t'.baseNext) := fun id => rel_getD (hedges (.action id)) hbase
  refine ⟨congrArg Identity.name hidentity, hkey, hentries, ?_, fun id => ?_, ?_⟩
  · exact Option.map_injective (fun _ _ => DefaultEntry.eq_of_toRecord) hdefault
  · rw [afterHit_eq, afterHit_eq]
    exact rel_getD (hedges .hit) (haction id)
  · exact rel_getD (hedges .miss) hbase

end Table

end

/-! ### Programs with one document -/

/-- The number of objects of a kind that a document shows. -/
def Records.count (r : Records) : ObjectKind → Nat
  | .pipeline => r.pipelines.length
  | .node => (r.pipelines.map fun p => p.tables.length + p.conditionals.length).sum
  | .conditional => (r.pipelines.map fun p => p.conditionals.length).sum
  | .flex => (r.pipelines.map fun p => p.conditionals.countP (·.flex)).sum
  | .table => (r.pipelines.map fun p => p.tables.length).sum
  | .action => r.actions.length
  | .registerArray => r.arrays.length
  | .calculation => r.calculations.length

namespace Program

variable {g g' : Program}

theorem countP_nodes (f : Node → Bool) (p : Pipeline) :
    p.nodes.countP f = p.tables.countP (fun t => f (.table t)) +
      p.conditionals.countP fun c => f (.conditional c) := by
  rw [← (Pipeline.perm_nodes p).countP_eq, List.countP_append, List.countP_map, List.countP_map]
  rfl

/-- A program has as many objects as its document shows. -/
theorem count_eq_records (g : Program) (kind : ObjectKind) :
    g.count kind = g.records.count kind := by
  have hnodes : ∀ f : Node → Bool, g.nodes.countP f = (g.pipelines.objects.map fun p =>
      p.tables.countP (fun t => f (.table t)) +
        p.conditionals.countP fun c => f (.conditional c)).sum := by
    intro f
    rw [nodes, List.countP_flatMap]
    exact congrArg List.sum (List.map_congr_left fun p _ => countP_nodes f p)
  cases kind with
  | node =>
    rw [count, ← List.countP_true, hnodes]
    simp [Records.count, records, Pipeline.toRecord, Function.comp_def]
  | conditional =>
    rw [count, hnodes]
    simp [Records.count, records, Pipeline.toRecord, Function.comp_def, Node.conditional?]
  | flex =>
    have htable : ∀ t : Table, ((Node.table t).kind == .flex) = false := fun _ => rfl
    have hflex : ∀ c : Conditional, ((Node.conditional c).kind == .flex) = c.flex := by
      intro c
      rw [Node.kind]
      cases c.flex <;> rfl
    rw [count, hnodes]
    simp only [htable, hflex, List.countP_false]
    simp [Records.count, records, Pipeline.toRecord, Function.comp_def, List.countP_map,
      Conditional.toRecord]
  | table =>
    rw [count, hnodes]
    simp [Records.count, records, Pipeline.toRecord, Function.comp_def, Node.table?]
  | pipeline => exact (List.length_map _).symm
  | action => exact (List.length_map _).symm
  | registerArray => exact (List.length_map _).symm
  | calculation => exact (List.length_map _).symm

theorem Loaded.records_eq (h : g.Loaded) (h' : g'.Loaded) (heq : g.document = g'.document) :
    g.records = g'.records := by
  have hroot : g.root = g'.root := Value.object.inj heq
  have hread := h.sound.readable h.ids
  have hread' := h'.sound.readable h'.ids
  have harrays := hread.arrays
  have hcalculations := hread.calculations
  have hactions := hread.actions
  have hpipelines := hread.pipelines
  rw [hroot, hread'.arrays, Except.ok.injEq] at harrays
  rw [hroot, hread'.calculations, Except.ok.injEq] at hcalculations
  rw [hroot, hread'.actions, Except.ok.injEq] at hactions
  rw [hroot, hread'.pipelines, Except.ok.injEq] at hpipelines
  have hextra : g.extra = g'.extra := by
    rw [← without_root h.sound.extra, hroot, without_root h'.sound.extra]
  simp only [records, Records.mk.injEq]
  exact ⟨harrays.symm, hcalculations.symm, hactions.symm, hpipelines.symm, hextra⟩

/-- Programs with one document give the same ids to new objects of a kind, unless an object of the
kind has the largest id. -/
theorem Loaded.nextId_eq (h : g.Loaded) (h' : g'.Loaded) (heq : g.records = g'.records)
    {kind : ObjectKind} (hmax : ∀ id ∈ g.idsInUse kind, id < maxId) :
    g.nextId kind = g'.nextId kind := by
  have hids : ∀ id, id ∈ g.idsInUse kind ↔ id ∈ g'.idsInUse kind := fun id => by
    rw [← mem_ids, heq, mem_ids]
  have hkind := h.countsUp kind hmax
  have hkind' := h'.countsUp kind fun id hid => hmax id ((hids id).mpr hid)
  exact Int.le_antisymm (hkind.le hkind' fun id => (hids id).mp)
    (hkind'.le hkind fun id => (hids id).mpr)

/-- Loaded programs with one document have the same actions. -/
theorem Loaded.actions_eq (h : g.Loaded) (h' : g'.Loaded) (heq : g.records = g'.records) :
    g.actions.actions = g'.actions.actions := by
  rw [← List.forall₂_eq_eq_eq]
  exact forall₂_of_map_eq (congrArg Records.actions heq) fun a ha a' ha' =>
    (h.sound.actions a ha).eq_of_toRecord (h'.sound.actions a' ha')

/-- Pipelines of loaded programs that have one record mirror each other. -/
theorem Loaded.mirrors_pipeline (h : g.Loaded) (h' : g'.Loaded)
    (hactions : g.actions.actions = g'.actions.actions) {p p' : Pipeline}
    (hp : p ∈ g.pipelines.objects) (hp' : p' ∈ g'.pipelines.objects)
    (heq : p.toRecord g.actions = p'.toRecord g'.actions) : p.Mirrors p' where
  name := congrArg (fun r : PipelineRecord => r.identity.name) heq
  init := by
    have hinit : p.edgeAt? .start = some p.init := rfl
    have hinit' : p'.edgeAt? .start = some p'.init := rfl
    exact (h.intact p hp).edgesMirror (h'.intact p' hp') hinit hinit'
      (congrArg PipelineRecord.init? heq)
  nodes n hn n' hn' hname := by
    have hsound := (h.sound.pipelines p hp).nodes n hn
    -- the node of `p'` with the record of `n` has the name of `n`, so it is `n'`
    have hsame : ∀ m ∈ p'.nodes, m.name = n.name → m = n' := by
      intro m hm hmname
      have hnode := h'.named p' hp' m hm
      rw [hmname, hname, h'.named p' hp' n' hn', Option.some.injEq] at hnode
      exact hnode.symm
    cases n with
    | conditional c =>
      have hmem : c.toRecord p ∈ p'.conditionals.map (Conditional.toRecord p') := by
        have hrecords : p.conditionals.map (Conditional.toRecord p) =
            p'.conditionals.map (Conditional.toRecord p') :=
          congrArg PipelineRecord.conditionals heq
        rw [← hrecords]
        exact List.mem_map_of_mem (Pipeline.mem_conditionals.mpr hn)
      obtain ⟨c', hc', hrecord⟩ := List.mem_map.mp hmem
      have hc'mem := Pipeline.mem_conditionals.mp hc'
      rw [← hsame _ hc'mem (congrArg (fun r : ConditionalRecord => r.identity.name) hrecord)]
      exact Conditional.mirrors_of_toRecord (h.intact p hp) (h'.intact p' hp') (h.named p hp)
        (h'.named p' hp') hn hc'mem hsound ((h'.sound.pipelines p' hp').nodes _ hc'mem) hrecord.symm
    | table t =>
      have hmem : t.toRecord p g.actions ∈ p'.tables.map (Table.toRecord p' g'.actions) := by
        rw [← show p.tables.map (Table.toRecord p g.actions) =
          p'.tables.map (Table.toRecord p' g'.actions) from congrArg PipelineRecord.tables heq]
        exact List.mem_map_of_mem (Pipeline.mem_tables.mpr hn)
      obtain ⟨t', ht', hrecord⟩ := List.mem_map.mp hmem
      have ht'mem := Pipeline.mem_tables.mp ht'
      have hnode := h.nodes p hp _ hn
      have hnode' := h'.nodes p' hp' _ ht'mem
      rw [← hsame _ ht'mem (congrArg (fun r : TableRecord => r.identity.name) hrecord)]
      have hedges := Table.edgesMirror_of_toRecord hactions (h.intact p hp) (h'.intact p' hp')
        (h.named p hp) (h'.named p' hp') hn ht'mem hnode hnode' (h.keyed p hp _ hn t rfl)
        (h'.keyed p' hp' _ ht'mem t' rfl) hrecord.symm
      have hsound' := (h'.sound.pipelines p' hp').nodes _ ht'mem
      have hentries : t.entries = t'.entries := by
        rw [hnode.entries t rfl, hnode'.entries t' rfl]
      exact Table.mirrors_of_toRecord hedges hsound hsound' hentries hrecord.symm

/-- The widths of the fields are read from the sections that a program keeps. -/
theorem Loaded.layout_eq (h : g.Loaded) (h' : g'.Loaded) (heq : g.records = g'.records) :
    g.layout = g'.layout := by
  have hlayout := h.sound.layout
  rw [show g.extra = g'.extra from congrArg Records.extra heq, h'.sound.layout,
    Except.ok.injEq] at hlayout
  exact hlayout.symm

/-- Programs that were just loaded and have one document mirror each other. -/
theorem Loaded.mirrors (h : g.Loaded) (h' : g'.Loaded) {s₀ s s₀' s' : Store}
    (hfresh : RegisterArray.Fresh s₀ g.arrays s) (hfresh' : RegisterArray.Fresh s₀' g'.arrays s')
    (heq : g.records = g'.records) : g.Mirrors g' where
  layout := h.layout_eq h' heq
  strays := h.arrays
  strays' := h'.arrays
  action id := by
    rw [action?, action?, ActionTable.get?, ActionTable.get?, h.actions_eq h' heq]
  calculation name := by
    have hlist : g.calculations.objects = g'.calculations.objects := by
      rw [← List.forall₂_eq_eq_eq]
      refine forall₂_of_map_eq (congrArg Records.calculations heq) fun c hc c' hc' => ?_
      exact Calculation.eq_of_toRecord (h.declared c hc)
        (h.layout_eq h' heq ▸ h'.declared c' hc')
    rw [calculation?, calculation?, ObjectMap.get?, ObjectMap.get?, hlist]
  array name := by
    rw [array?, array?, ObjectMap.lookup?_eq_get? h.arrays, ObjectMap.lookup?_eq_get? h'.arrays]
    refine rel_find? (forall₂_of_map_eq (congrArg Records.arrays heq) ?_) ?_
    · intro a ha a' ha' hrecord
      have hpending := (hfresh.pending a ha).trans (hfresh'.pending a' ha').symm
      exact ⟨congrArg (fun r : ArrayRecord => r.identity.name) hrecord,
        congrArg ArrayRecord.size hrecord, congrArg ArrayRecord.bitwidth hrecord, hpending⟩
    · intro a a' hmirrors
      rw [show nameOf a = nameOf a' from hmirrors.name]
  apart := hfresh.grows.apartByName nofun nofun
  apart' := hfresh'.grows.apartByName nofun nofun
  pipelines := forall₂_of_map_eq (congrArg Records.pipelines heq) fun _ hp _ hp' =>
    h.mirrors_pipeline h' (h.actions_eq h' heq) hp hp'

/-- The arrays of programs that were just loaded hold zeros. -/
theorem Mirrors.sameCells (h : g.Mirrors g') {s₀ s s₀' s' : Store}
    (hfresh : RegisterArray.Fresh s₀ g.arrays s) (hfresh' : RegisterArray.Fresh s₀' g'.arrays s') :
    g.SameCells g' s s' := by
  intro name a a' ha ha'
  have hmem := mem_of_array? ha
  have hmem' := mem_of_array? ha'
  have hrel := h.array name
  rw [ha, ha'] at hrel
  obtain ⟨hmirrors⟩ := hrel
  refine ⟨hfresh.grows.bounded a hmem, hfresh'.grows.bounded a' hmem', ?_⟩
  rw [hfresh.zeros a hmem, hfresh'.zeros a' hmem', hmirrors.size, hmirrors.bitwidth]

/-- The document of a program that was just loaded says all about it but what the counters are after
the largest id: it is loaded again, over any store, into a program with that document, with as many
objects of each kind and the same next id for each kind of which no object has the largest id, which
does to every sequence of packets what the first program does: each packet takes the same path or
fails the same way and comes out the same, and the arrays show the same in the end. -/
theorem document_faithful {s₀ s : Store} {v : Value} (h : ofDocument s₀ v = .ok (g, s))
    (s₁ : Store) : ∃ g' s', ofDocument s₁ g.document = .ok (g', s') ∧ g'.document = g.document ∧
      (∀ kind, g'.count kind = g.count kind ∧
        ((∀ id ∈ g.idsInUse kind, id < maxId) → g'.nextId kind = g.nextId kind)) ∧
      ∀ packets, (g'.feed s' packets).1 = (g.feed s packets).1 ∧
        ∀ name, g'.cells? (g'.feed s' packets).2 name = g.cells? (g.feed s packets).2 name := by
  have hloaded := loaded_ofDocument h
  obtain ⟨g', s', h', hdocument⟩ :=
    ofDocument_document hloaded.sound hloaded.ids hloaded.reloadable s₁
  have hloaded' := loaded_ofDocument h'
  have heq := hloaded'.records_eq hloaded hdocument
  have hmirrors := hloaded'.mirrors hloaded (ofDocument_fresh h') (ofDocument_fresh h) heq
  have hcells := hmirrors.sameCells (ofDocument_fresh h') (ofDocument_fresh h)
  refine ⟨g', s', h', hdocument, fun kind => ⟨?_, fun hmax =>
    (hloaded.nextId_eq hloaded' heq.symm hmax).symm⟩, fun packets => ?_⟩
  · rw [count_eq_records, count_eq_records, heq]
  · obtain ⟨houtcomes, hend⟩ := hmirrors.feed hcells packets
    exact ⟨houtcomes, hmirrors.cells?_eq hend⟩

/-- A document that lists a table with a higher id first, whose action writes to
an array. -/
def shuffledDocument : Value :=
  let tally := Operand.primitive "register_write"
    [Operand.array "hits", Operand.constant 0, Operand.constant 7]
  let p : PipelineBuilder := { name := "p", id := 0, init? := some "b" }
  (((DocumentBuilder.empty.array "hits" 0 1 8).action "tally" 0 [] [tally]).pipeline
    ((p.table "b" 1 [] [("tally", 0)] [("tally", some "a")] (some "a") (some 0)).table
      "a" 0 [] [] [] none none)).document

/-- The document lists the tables by id, and the program loaded from it still starts at the table
with the higher id and runs its action. -/
theorem shuffled_document_faithful : ∃ g s g' s', ofDocument {} shuffledDocument = .ok (g, s) ∧
    g.nodes.map Node.name = ["b", "a"] ∧ ofDocument {} g.document = .ok (g', s') ∧
    g'.document = g.document ∧
    (∀ kind, g'.count kind = g.count kind ∧ g'.nextId kind = g.nextId kind) ∧
    (g'.feed s' [{}]).1.map (fun x => (x.1.toOption, x.2)) =
      [(some [.table "b" false, .table "a" false], {})] ∧
    g'.cells? (g'.feed s' [{}]).2 "hits" = some [7] := by
  have hnodes : ((ofDocument {} shuffledDocument).toOption.map fun x =>
      (x.1.nodes.map Node.name, decide x.1.BelowMax)) = some (["b", "a"], true) := by
    decide +kernel
  have hfeed : ((ofDocument {} shuffledDocument).toOption.map fun x =>
      ((x.1.feed x.2 [{}]).1.map (fun x => (x.1.toOption, x.2)),
        x.1.cells? (x.1.feed x.2 [{}]).2 "hits")) =
      some ([(some [.table "b" false, .table "a" false], {})], some [7]) := by decide +kernel
  cases h : ofDocument {} shuffledDocument with
  | error e => rw [h] at hnodes; cases hnodes
  | ok x =>
    obtain ⟨g, s⟩ := x
    rw [h, Except.toOption, Option.map_some, Option.some.injEq] at hnodes hfeed
    obtain ⟨hnodes, hbelow⟩ := Prod.mk.inj hnodes
    have hmax := of_decide_eq_true hbelow
    obtain ⟨houtcomes, hcells⟩ := Prod.mk.inj hfeed
    obtain ⟨g', s', h', hdocument, hcount, hsame⟩ := document_faithful h {}
    obtain ⟨houtcomes', hcells'⟩ := hsame [{}]
    exact ⟨g, s, g', s', rfl, hnodes, h', hdocument,
      fun kind => ⟨(hcount kind).1, (hcount kind).2 (hmax kind)⟩,
      by rw [houtcomes', houtcomes], by rw [hcells', hcells]⟩

/-- A document that lists the array of the largest id first. -/
def largestFirstDocument : Value :=
  ((DocumentBuilder.empty.array "y" maxId 1 8).array "w" 5 1 8).document

/-- The rendered document lists that array last, and the next id is another one. -/
theorem reload_changes_next_id : ∃ g s g' s', ofDocument {} largestFirstDocument = .ok (g, s) ∧
    ofDocument {} g.document = .ok (g', s') ∧ g.nextId .registerArray = 6 ∧
    g'.nextId .registerArray = minId := by
  have hfacts : (ofDocument {} largestFirstDocument).toOption.any (fun x =>
      x.1.nextId .registerArray == 6 && (ofDocument {} x.1.document).toOption.any fun y =>
        y.1.nextId .registerArray == minId) = true := by decide +kernel
  obtain ⟨⟨g, s⟩, hg, hfacts⟩ := exists_of_any_toOption hfacts
  obtain ⟨hnext, hfacts⟩ := Bool.and_eq_true_iff.mp hfacts
  obtain ⟨⟨g', s'⟩, hg', hnext'⟩ := exists_of_any_toOption hfacts
  exact ⟨g, s, g', s', hg, hg', beq_iff_eq.mp hnext, beq_iff_eq.mp hnext'⟩

end Program

end LiveSwitch
