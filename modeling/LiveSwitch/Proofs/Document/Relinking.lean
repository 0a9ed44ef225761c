import LiveSwitch.Proofs.Document.Sound
import LiveSwitch.Proofs.Text.Constants

/-!
# Edges written and read back

An edge is written as the name of a node and read back as the reference of that name, in a
pipeline that is put together anew.  So the new edge is another reference, to a node of the same
name, and is written in the same way.  The next nodes of a table need care: they are written
under the names of actions, and what is under one name may be read back as the edge of another
action of that name, or as the hit or miss edge.

## Main definitions

* `Table.bare`, `Conditional.bare` — nodes without edges, as they are read.
* `Table.nextFields` — the next nodes of a table, before names that occur twice are sorted out.

## Main results

* `Loader.linkTable_toRecord`, `Loader.linkConditional_toRecord` — a node without edges, linked
  by the record of a node, has that record.
-/

namespace LiveSwitch

open Json

/-! ### Nodes without edges -/

/-- A table without edges and entries. -/
def Table.bare (t : Table) : Table :=
  { t with
    nextByAction := [], hitNext? := none, missNext? := none, baseNext := none, entries := [] }

/-- A conditional without edges. -/
def Conditional.bare (c : Conditional) : Conditional :=
  { c with trueNext := none, falseNext := none }

theorem DefaultEntry.mapM_decodeWord (table : String) (data : List UInt64) :
    (data.map Constant.text).mapM (decodeWord table) = .ok data := by
  rw [mapM_eq_ok]
  induction data with
  | nil => exact List.Forall₂.nil
  | cons w data ih =>
    refine List.Forall₂.cons ?_ ih
    rw [decodeWord, Constant.parse?_text]

/-- A table is read back from its record without its edges. -/
theorem Table.ofRecord_toRecord {actions : ActionTable} {t : Table} (h : t.Sound actions)
    (p : Pipeline) : ofRecord (t.toRecord p actions) = .ok t.bare := by
  refine ofRecord_eq_ok.mpr ⟨t.keyFields, t.default?, h.key, ?_, rfl⟩
  rw [option_mapM_eq_ok]
  show Option.Rel _ (t.default?.map DefaultEntry.toRecord) t.default?
  cases t.default? with
  | none => exact Option.Rel.none
  | some d =>
    refine Option.Rel.some (DefaultEntry.ofRecord_eq_ok.mpr ⟨d.data, ?_, rfl⟩)
    exact DefaultEntry.mapM_decodeWord _ d.data

/-- A conditional is read back from its record without its edges, unless it is no flex node and
has no condition. -/
theorem Conditional.conditionalOf_toRecord {c c' : Conditional} (h : c.Sound) (p : Pipeline) :
    Loader.conditionalOf (c.toRecord p) = .ok c' ↔
      (c.condition? = none → c.flex = true) ∧ c' = c.bare := by
  have hcondition : (c.toRecord p).expression?.mapM Condition.decode = .ok c.condition? := by
    rw [option_mapM_eq_ok]
    show Option.Rel _ (c.condition?.map Condition.json) c.condition?
    cases hc : c.condition? with
    | none => exact Option.Rel.none
    | some d => exact Option.Rel.some (h.condition d hc)
  rw [Loader.conditionalOf_eq_ok]
  constructor
  · rintro ⟨condition?, hd, hflex, rfl⟩
    rw [hcondition] at hd
    cases hd
    exact ⟨hflex, rfl⟩
  · rintro ⟨hflex, rfl⟩
    exact ⟨c.condition?, hcondition, hflex, rfl⟩

/-! ### Names of edges -/

/-- A record depends on its pipeline only by the names of the nodes that edges lead to. -/
theorem Table.toRecord_congr {p p' : Pipeline} (h : ∀ e, p.nodeName? e = p'.nodeName? e)
    (actions : ActionTable) (t : Table) : t.toRecord p actions = t.toRecord p' actions := by
  have hname : p.nodeName? = p'.nodeName? := funext h
  unfold Table.toRecord Table.nextTables Pipeline.edgeJson
  rw [hname]

namespace Pipeline

/-- An edge leads to a node of the pipeline, if to any. -/
theorem mem_of_nodeName? {p : Pipeline} {e : Edge} {name : String}
    (h : p.nodeName? e = some name) : name ∈ p.nodes.map Node.name := by
  obtain ⟨n, hn, rfl⟩ := Option.map_eq_some_iff.mp h
  obtain ⟨r, -, hr⟩ := Option.bind_eq_some_iff.mp hn
  exact List.mem_map_of_mem (mem_nodes_of_resolve? hr)

namespace Packed

variable {p : Pipeline} {ns : List Node} {name? : Option String}

/-- An edge that is made from a name is written as that name. -/
theorem nodeName?_bind_find? (h : p.Packed ns)
    (hname : ∀ name ∈ name?, name ∈ ns.map Node.name) :
    p.nodeName? (name?.bind p.find?) = name? := by
  cases name? with
  | none => rfl
  | some name => exact h.nodeName?_find? (hname name rfl)

theorem resolve_eq (h : p.Packed ns) (hname : ∀ name ∈ name?, name ∈ ns.map Node.name)
    (kind : ObjectKind) (referrer : String) :
    Loader.resolve p kind referrer name? = .ok (name?.bind p.find?) := by
  refine Loader.resolve_eq_ok.mpr ⟨rfl, fun hnone => ?_⟩
  have hback := h.nodeName?_bind_find? hname
  rw [hnone] at hback
  exact hback.symm

end Packed

end Pipeline

/-! ### Actions by name -/

/-- The first action of a name has the name. -/
theorem Program.exists_of_actionNamed? {g : Program} {ids : List Int} {name : String} {id : Int}
    (h : g.actionNamed? ids name = some id) : ∃ a, g.action? id = some a ∧ a.name = name := by
  rw [actionNamed?] at h
  have hnamed := List.find?_some h
  obtain ⟨a, ha, hname⟩ := (Option.any_eq_true _ _).mp hnamed
  exact ⟨a, ha, beq_iff_eq.mp hname⟩

/-! ### The next nodes of a table -/

namespace Table

/-- The next nodes of a table as they are listed, the last one of a name counting. -/
def nextFields (p : Pipeline) (actions : ActionTable) (t : Table) : List (String × Value) :=
  (t.nextByAction.filterMap fun (id, e) => (actions.get? id).map fun a => (a.name, p.edgeJson e)) ++
    (t.hitNext?.toList.map fun e => (hitKey, p.edgeJson e)) ++
    t.missNext?.toList.map fun e => (missKey, p.edgeJson e)

theorem nextTables_eq (p : Pipeline) (actions : ActionTable) (t : Table) :
    t.nextTables p actions = Object.ofList (t.nextFields p actions) := rfl

variable {p : Pipeline} {actions : ActionTable} {t : Table} {f : String × Value}

theorem mem_nextFields : f ∈ t.nextFields p actions ↔
    (∃ x ∈ t.nextByAction, ∃ a, actions.get? x.1 = some a ∧ (a.name, p.edgeJson x.2) = f) ∨
      (∃ e, t.hitNext? = some e ∧ (hitKey, p.edgeJson e) = f) ∨
      ∃ e, t.missNext? = some e ∧ (missKey, p.edgeJson e) = f := by
  simp only [nextFields, List.mem_append, List.mem_filterMap, List.mem_map, Option.mem_toList,
    Option.map_eq_some_iff, or_assoc]

/-- The edge of an action of a new name is one more field. -/
theorem mem_nextFields_setActionNext {id : Int} {a : Action} {e : Edge}
    (ha : actions.get? id = some a) (hnew : ∀ f ∈ t.nextFields p actions, f.1 ≠ a.name) :
    f ∈ (t.setActionNext id e).nextFields p actions ↔
      f = (a.name, p.edgeJson e) ∨ f ∈ t.nextFields p actions := by
  have hid : ∀ x ∈ t.nextByAction, x.1 ≠ id := by
    rintro x hx rfl
    exact hnew _ (mem_nextFields.mpr (Or.inl ⟨x, hx, a, ha, rfl⟩)) rfl
  rw [mem_nextFields, mem_nextFields]
  simp only [setActionNext, Assoc.mem_insert_of_new hid]
  constructor
  · rintro (⟨x, rfl | hx, b, hb, rfl⟩ | h)
    · rw [ha] at hb
      cases hb
      exact Or.inl rfl
    · exact Or.inr (Or.inl ⟨x, hx, b, hb, rfl⟩)
    · exact Or.inr (Or.inr h)
  · rintro (rfl | ⟨x, hx, h⟩ | h)
    · exact Or.inl ⟨(id, e), Or.inl rfl, a, ha, rfl⟩
    · exact Or.inl ⟨x, Or.inr hx, h⟩
    · exact Or.inr h

/-- So is a new hit edge. -/
theorem mem_nextFields_hit {e : Edge} (hnew : ∀ f ∈ t.nextFields p actions, f.1 ≠ hitKey) :
    f ∈ nextFields p actions { t with hitNext? := some e } ↔
      f = (hitKey, p.edgeJson e) ∨ f ∈ t.nextFields p actions := by
  have hnone : t.hitNext? = none := by
    cases h : t.hitNext? with
    | none => rfl
    | some e' => exact absurd rfl (hnew _ (mem_nextFields.mpr (Or.inr (Or.inl ⟨e', h, rfl⟩))))
  rw [mem_nextFields, mem_nextFields, hnone]
  constructor
  · rintro (h | ⟨e', he, rfl⟩ | h)
    · exact Or.inr (Or.inl h)
    · cases he
      exact Or.inl rfl
    · exact Or.inr (Or.inr (Or.inr h))
  · rintro (rfl | h | ⟨e', he, -⟩ | h)
    · exact Or.inr (Or.inl ⟨e, rfl, rfl⟩)
    · exact Or.inl h
    · cases he
    · exact Or.inr (Or.inr h)

/-- So is a new miss edge. -/
theorem mem_nextFields_miss {e : Edge} (hnew : ∀ f ∈ t.nextFields p actions, f.1 ≠ missKey) :
    f ∈ nextFields p actions { t with missNext? := some e } ↔
      f = (missKey, p.edgeJson e) ∨ f ∈ t.nextFields p actions := by
  have hnone : t.missNext? = none := by
    cases h : t.missNext? with
    | none => rfl
    | some e' => exact absurd rfl (hnew _ (mem_nextFields.mpr (Or.inr (Or.inr ⟨e', h, rfl⟩))))
  rw [mem_nextFields, mem_nextFields, hnone]
  constructor
  · rintro (h | h | ⟨e', he, rfl⟩)
    · exact Or.inr (Or.inl h)
    · exact Or.inr (Or.inr (Or.inl h))
    · cases he
      exact Or.inl rfl
  · rintro (rfl | h | h | ⟨e', he, -⟩)
    · exact Or.inr (Or.inr ⟨e, rfl, rfl⟩)
    · exact Or.inl h
    · exact Or.inr (Or.inl h)
    · cases he

end Table

namespace Loader

variable {g : Program} {p : Pipeline} {ns : List Node}

theorem string?_textOrNull (name? : Option String) :
    (Record.textOrNull name?).string? = name? := by
  cases name? <;> rfl

/-- One next node is read: it is one more field of the table. -/
theorem linkNext_nextFields {r : TableRecord} {t : Table} {key : String} {name? : Option String}
    (hp : p.Packed ns) (hname : ∀ name ∈ name?, name ∈ ns.map Node.name)
    (hport : (nextPort? g r.actionIds key).isSome)
    (hnew : ∀ f ∈ t.nextFields p g.actions, f.1 ≠ key) :
    ∃ t', linkNext g p r t (key, Record.textOrNull name?) = .ok t' ∧ t'.bare = t.bare ∧
      t'.baseNext = t.baseNext ∧ ∀ f, f ∈ t'.nextFields p g.actions ↔
        f = (key, Record.textOrNull name?) ∨ f ∈ t.nextFields p g.actions := by
  have hjson : p.edgeJson (name?.bind p.find?) = Record.textOrNull name? := by
    rw [Pipeline.edgeJson, hp.nodeName?_bind_find? hname]
  have hresolve : resolve p .table r.identity.name (Record.textOrNull name?).string? =
      .ok (name?.bind p.find?) := by
    rw [string?_textOrNull, hp.resolve_eq hname]
  rw [linkNext, hresolve, ← hjson]
  -- the two keys that are no names of actions
  by_cases hhit : key = hitKey
  · subst hhit
    exact ⟨_, rfl, rfl, rfl, fun f => Table.mem_nextFields_hit hnew⟩
  by_cases hmiss : key = missKey
  · subst hmiss
    exact ⟨_, rfl, rfl, rfl, fun f => Table.mem_nextFields_miss hnew⟩
  rw [nextPort?, if_neg hhit, if_neg hmiss, Option.isSome_map] at hport
  obtain ⟨id, hid⟩ := Option.isSome_iff_exists.mp hport
  obtain ⟨a, ha, haname⟩ := Program.exists_of_actionNamed? hid
  refine ⟨t.setActionNext id (name?.bind p.find?), ?_, rfl, rfl, fun f => ?_⟩
  · refine bind_eq_ok.mpr ⟨_, rfl, ?_⟩
    rw [if_neg hhit, if_neg hmiss, hid]
    rfl
  · rw [← haname] at hnew ⊢
    exact Table.mem_nextFields_setActionNext ha hnew

/-- All next nodes are read: they are the fields of the table. -/
theorem linkNexts_nextFields {r : TableRecord} {nexts : Object} {t : Table} (hp : p.Packed ns)
    (hnexts : ∀ f ∈ nexts, (nextPort? g r.actionIds f.1).isSome ∧ ∃ name?,
      f.2 = Record.textOrNull name? ∧ ∀ name ∈ name?, name ∈ ns.map Node.name)
    (hkeys : (nexts.map Prod.fst).Nodup)
    (hnew : ∀ f ∈ t.nextFields p g.actions, f.1 ∉ nexts.map Prod.fst) :
    ∃ t', nexts.foldlM (linkNext g p r) t = .ok t' ∧ t'.bare = t.bare ∧
      t'.baseNext = t.baseNext ∧
      ∀ f, f ∈ t'.nextFields p g.actions ↔ f ∈ t.nextFields p g.actions ∨ f ∈ nexts := by
  induction nexts generalizing t with
  | nil => exact ⟨t, rfl, rfl, rfl, fun f => by simp⟩
  | cons f nexts ih =>
    obtain ⟨key, v⟩ := f
    rw [List.forall_mem_cons] at hnexts
    rw [List.map_cons, List.nodup_cons] at hkeys
    obtain ⟨⟨hport, name?, rfl, hname⟩, hnexts⟩ := hnexts
    obtain ⟨t₁, hstep, hbare₁, hbase₁, hfields₁⟩ := linkNext_nextFields (t := t) hp hname hport
      fun f hf he => hnew f hf (he ▸ List.mem_cons_self)
    have hnew₁ : ∀ f ∈ t₁.nextFields p g.actions, f.1 ∉ nexts.map Prod.fst := by
      intro f hf hmem
      rcases (hfields₁ f).mp hf with rfl | hf
      · exact hkeys.1 hmem
      · exact hnew f hf (List.mem_cons_of_mem _ hmem)
    obtain ⟨t', hfold, hbare', hbase', hfields'⟩ := ih hnexts hkeys.2 hnew₁
    refine ⟨t', foldlM_cons_eq_ok.mpr ⟨t₁, hstep, hfold⟩, hbare'.trans hbare₁,
      hbase'.trans hbase₁, fun f => ?_⟩
    rw [hfields', hfields₁, List.mem_cons, or_assoc, or_left_comm]

/-- The next nodes of a table can be read back among nodes of the same names. -/
theorem nextTables_readable {t : Table} {p₀ : Pipeline} (ht : t.Sound g.actions)
    (hnames : ∀ name ∈ p₀.nodes.map Node.name, name ∈ ns.map Node.name) :
    ∀ f ∈ t.nextTables p₀ g.actions, (nextPort? g t.actionIds f.1).isSome ∧ ∃ name?,
      f.2 = Record.textOrNull name? ∧ ∀ name ∈ name?, name ∈ ns.map Node.name := by
  have hedge : ∀ e, ∃ name?, p₀.edgeJson e = Record.textOrNull name? ∧
      ∀ name ∈ name?, name ∈ ns.map Node.name := by
    intro e
    exact ⟨p₀.nodeName? e, rfl, fun name hname => hnames name (Pipeline.mem_of_nodeName? hname)⟩
  intro f hf
  rcases Table.mem_nextFields.mp (Object.mem_of_mem_ofList hf) with
    ⟨x, hx, a, ha, rfl⟩ | ⟨e, -, rfl⟩ | ⟨e, -, rfl⟩
  · refine ⟨?_, hedge x.2⟩
    have hnamed : (g.actionNamed? t.actionIds a.name).isSome := by
      refine List.find?_isSome.mpr ⟨x.1, ht.next x hx, ?_⟩
      rw [Program.action?, ha]
      exact beq_self_eq_true _
    unfold nextPort?
    split
    · rfl
    · split
      · rfl
      · rw [Option.isSome_map]
        exact hnamed
  · exact ⟨rfl, hedge e⟩
  · exact ⟨rfl, hedge e⟩

end Loader

/-- Tables that agree in what is read at once, and whose edges are written alike, have one
record. -/
theorem Table.toRecord_of_bare {p p' : Pipeline} {actions : ActionTable} {t t' : Table}
    (hbare : t'.bare = t.bare) (hbase : p'.nodeName? t'.baseNext = p.nodeName? t.baseNext)
    (hnext : t'.nextTables p' actions = t.nextTables p actions) :
    t'.toRecord p' actions = t.toRecord p actions := by
  cases t
  cases t'
  simp only [Table.bare, Table.mk.injEq] at hbare
  obtain ⟨rfl, rfl, rfl, rfl, rfl, -, -, -, -, rfl, -, rfl⟩ := hbare
  unfold Table.toRecord
  rw [hbase, hnext]

/-! ### Linking a node -/

/-- A table is another one, linked anew among nodes of the same names. -/
structure Table.Relinked (names : List String) (actions : ActionTable) (p₀ : Pipeline)
    (t t' : Table) : Prop where
  identity : t'.identity = t.identity
  record : ∀ {q ns}, q.Packed ns → ns.map Node.name = names →
    t'.toRecord q actions = t.toRecord p₀ actions

/-- A conditional is another one, linked anew among nodes of the same names. -/
structure Conditional.Relinked (names : List String) (p₀ : Pipeline) (c c' : Conditional) :
    Prop where
  identity : c'.identity = c.identity
  record : ∀ {q ns}, q.Packed ns → ns.map Node.name = names → c'.toRecord q = c.toRecord p₀

/-- Among nodes of different names, one is changed. -/
theorem Node.map_if_name {pre post : List Node} {n : Node} {f : Node → Node}
    (h : ((pre ++ n :: post).map Node.name).Nodup) :
    (pre ++ n :: post).map (fun m => if m.name = n.name then f m else m) =
      pre ++ f n :: post := by
  have hsame : ∀ l : List Node, (∀ m ∈ l, m.name ≠ n.name) →
      l.map (fun m => if m.name = n.name then f m else m) = l := by
    intro l hl
    rw [List.map_congr_left fun m hm => if_neg (hl m hm), List.map_id']
  rw [List.map_append, List.map_cons, List.nodup_append, List.nodup_cons] at h
  obtain ⟨-, ⟨hpost, -⟩, hpre⟩ := h
  rw [List.map_append, List.map_cons, if_pos rfl, hsame pre, hsame post]
  · exact fun m hm he => hpost (he ▸ List.mem_map_of_mem hm)
  · exact fun m hm he => hpre m.name (List.mem_map_of_mem hm) n.name List.mem_cons_self he

namespace Loader

variable {g : Program} {p p₀ : Pipeline} {names : List String} {pre post : List Node}

/-- A table without edges is linked by the record of a table. -/
theorem linkTable_toRecord {t : Table} (hp : p.Packed (pre ++ .table t.bare :: post))
    (hnames : (pre ++ .table t.bare :: post).map Node.name = names) (ht : t.Sound g.actions)
    (hp₀ : ∀ name ∈ p₀.nodes.map Node.name, name ∈ names) :
    ∃ p' t', linkTable g p (t.toRecord p₀ g.actions) = .ok p' ∧
      p'.Packed (pre ++ .table t' :: post) ∧ t.Relinked names g.actions p₀ t' := by
  subst hnames
  have hmem : Node.table t.bare ∈ pre ++ .table t.bare :: post :=
    List.mem_append_right _ List.mem_cons_self
  have hself : p.table? t.identity.name = some t.bare := by
    have hnode : p.node? t.identity.name = some (.table t.bare) := hp.node? hmem
    rw [Pipeline.table?, hnode]
    rfl
  have hbase₀ : ∀ name ∈ p₀.nodeName? t.baseNext,
      name ∈ (pre ++ .table t.bare :: post).map Node.name :=
    fun name hname => hp₀ name (Pipeline.mem_of_nodeName? hname)
  let start : Table := { t.bare with baseNext := (p₀.nodeName? t.baseNext).bind p.find? }
  have hempty : start.nextFields p g.actions = [] := rfl
  -- the edges are written among the fields of a table that has none
  obtain ⟨t', hnexts, hbare, hbaseNext, hfields⟩ : ∃ t',
      (t.nextTables p₀ g.actions).foldlM (linkNext g p (t.toRecord p₀ g.actions)) start = .ok t' ∧
      t'.bare = t.bare ∧ t'.baseNext = start.baseNext ∧
      ∀ f, f ∈ t'.nextFields p g.actions ↔
        f ∈ start.nextFields p g.actions ∨ f ∈ t.nextTables p₀ g.actions := by
    refine linkNexts_nextFields hp (nextTables_readable ht hp₀) ?_ ?_
    · exact (Object.sorted_ofList _).imp ne_of_lt
    · rw [hempty]
      exact fun f hf => absurd hf List.not_mem_nil
  have hidentity : t'.bare.identity = t.bare.identity := by rw [hbare]
  have hrecord : t'.toRecord p g.actions = t.toRecord p₀ g.actions := by
    refine Table.toRecord_of_bare hbare ?_ ?_
    · rw [hbaseNext]
      exact hp.nodeName?_bind_find? hbase₀
    · rw [Table.nextTables_eq]
      refine Object.ofList_eq_of_mem_iff (Object.sorted_ofList _) fun f => ?_
      rw [hfields, hempty]
      exact or_iff_right List.not_mem_nil
  refine ⟨p.modifyTable t.identity.name fun _ => t', t', ?_, ?_, hidentity, ?_⟩
  · exact linkTable_eq_ok.mpr ⟨_, t.bare, t', hp.resolve_eq hbase₀ _ _, hself, hnexts, rfl⟩
  · have hmodify : (p.modifyNode (Node.table t.bare).name (Node.mapTable fun _ => t')).Packed
        ((pre ++ .table t.bare :: post).map fun m =>
          if m.name = (Node.table t.bare).name then m.mapTable fun _ => t' else m) := by
      refine hp.modify fun m _ hm => ?_
      cases m with
      | conditional c => rfl
      | table u => exact (congrArg Identity.name hidentity).trans hm.symm
    rw [Node.map_if_name hp.names] at hmodify
    exact hmodify
  · intro q ns hq hns
    rw [← hrecord]
    exact Table.toRecord_congr (fun e => hq.nodeName?_eq hp hns e) g.actions t'

/-- A conditional without edges is linked by the record of a conditional. -/
theorem linkConditional_toRecord {c : Conditional}
    (hp : p.Packed (pre ++ .conditional c.bare :: post))
    (hnames : (pre ++ .conditional c.bare :: post).map Node.name = names)
    (hp₀ : ∀ name ∈ p₀.nodes.map Node.name, name ∈ names) :
    ∃ p' c', linkConditional p (c.toRecord p₀) = .ok p' ∧
      p'.Packed (pre ++ .conditional c' :: post) ∧ c.Relinked names p₀ c' := by
  subst hnames
  have hedge : ∀ e, ∀ name ∈ p₀.nodeName? e,
      name ∈ (pre ++ .conditional c.bare :: post).map Node.name :=
    fun e name hname => hp₀ name (Pipeline.mem_of_nodeName? hname)
  let trueNext := (p₀.nodeName? c.trueNext).bind p.find?
  let falseNext := (p₀.nodeName? c.falseNext).bind p.find?
  refine ⟨p.modifyConditional c.identity.name fun c => { c with trueNext, falseNext },
    { c with trueNext, falseNext }, ?_, ?_, rfl, ?_⟩
  · exact linkConditional_eq_ok.mpr ⟨trueNext, falseNext, hp.resolve_eq (hedge _) _ _,
      hp.resolve_eq (hedge _) _ _, rfl⟩
  · have hmodify : (p.modifyNode (Node.conditional c.bare).name
          (Node.mapConditional fun c => { c with trueNext, falseNext })).Packed
        ((pre ++ .conditional c.bare :: post).map fun m =>
          if m.name = (Node.conditional c.bare).name
          then m.mapConditional fun c => { c with trueNext, falseNext } else m) := by
      refine hp.modify fun m _ _ => ?_
      cases m with
      | conditional d => rfl
      | table t => rfl
    rw [Node.map_if_name hp.names] at hmodify
    exact hmodify
  · intro q ns hq hns
    have htrue : q.nodeName? trueNext = p₀.nodeName? c.trueNext :=
      (hq.nodeName?_eq hp hns _).trans (hp.nodeName?_bind_find? (hedge _))
    have hfalse : q.nodeName? falseNext = p₀.nodeName? c.falseNext :=
      (hq.nodeName?_eq hp hns _).trans (hp.nodeName?_bind_find? (hedge _))
    unfold Conditional.toRecord
    rw [htrue, hfalse]

/-! ### Linking all nodes -/

/-- Tables without edges are linked by the records of tables. -/
theorem linkTables_toRecord {ts : List Table}
    (hp : p.Packed (pre ++ (ts.map (fun t => Node.table t.bare) ++ post)))
    (hnames : (pre ++ (ts.map (fun t => Node.table t.bare) ++ post)).map Node.name = names)
    (hts : ∀ t ∈ ts, t.Sound g.actions) (hp₀ : ∀ name ∈ p₀.nodes.map Node.name, name ∈ names) :
    ∃ p' ts', (ts.map (Table.toRecord p₀ g.actions)).foldlM (linkTable g) p = .ok p' ∧
      p'.Packed (pre ++ (ts'.map Node.table ++ post)) ∧
      ts.Forall₂ (Table.Relinked names g.actions p₀) ts' := by
  induction ts generalizing p pre with
  | nil => exact ⟨p, [], rfl, hp, List.Forall₂.nil⟩
  | cons t ts ih =>
    rw [List.forall_mem_cons] at hts
    obtain ⟨p₁, t', hlink, hp₁, ht'⟩ := linkTable_toRecord hp hnames hts.1 hp₀
    rw [List.append_cons] at hp₁
    have hnames₁ : (pre ++ [Node.table t'] ++
        (ts.map (fun t => Node.table t.bare) ++ post)).map Node.name = names := by
      rw [← List.append_cons, ← hnames, List.map_append, List.map_append, List.map_cons]
      rw [show (Node.table t').name = (Node.table t.bare).name from
        congrArg Identity.name ht'.identity]
      rfl
    obtain ⟨p', ts', hlinks, hp', hts'⟩ := ih hp₁ hnames₁ hts.2
    rw [← List.append_cons] at hp'
    exact ⟨p', t' :: ts', foldlM_cons_eq_ok.mpr ⟨p₁, hlink, hlinks⟩, hp', hts'.cons ht'⟩

/-- Conditionals without edges are linked by the records of conditionals. -/
theorem linkConditionals_toRecord {cs : List Conditional}
    (hp : p.Packed (pre ++ cs.map (fun c => Node.conditional c.bare)))
    (hnames : (pre ++ cs.map (fun c => Node.conditional c.bare)).map Node.name = names)
    (hp₀ : ∀ name ∈ p₀.nodes.map Node.name, name ∈ names) :
    ∃ p' cs', (cs.map (Conditional.toRecord p₀)).foldlM linkConditional p = .ok p' ∧
      p'.Packed (pre ++ cs'.map Node.conditional) ∧
      cs.Forall₂ (Conditional.Relinked names p₀) cs' := by
  induction cs generalizing p pre with
  | nil => exact ⟨p, [], rfl, hp, List.Forall₂.nil⟩
  | cons c cs ih =>
    obtain ⟨p₁, c', hlink, hp₁, hc'⟩ := linkConditional_toRecord hp hnames hp₀
    rw [List.append_cons] at hp₁
    have hnames₁ : (pre ++ [Node.conditional c'] ++ cs.map (fun c => Node.conditional c.bare)).map
        Node.name = names := by
      rw [← List.append_cons, ← hnames, List.map_append, List.map_append, List.map_cons]
      rw [show (Node.conditional c').name = (Node.conditional c.bare).name from
        congrArg Identity.name hc'.identity]
      rfl
    obtain ⟨p', cs', hlinks, hp', hcs'⟩ := ih hp₁ hnames₁
    rw [← List.append_cons] at hp'
    exact ⟨p', c' :: cs', foldlM_cons_eq_ok.mpr ⟨p₁, hlink, hlinks⟩, hp', hcs'.cons hc'⟩

end Loader

end LiveSwitch
