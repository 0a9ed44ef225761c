import LiveSwitch.Proofs.Document.Revisions

/-!
# One next node of a table

A table has its next nodes by name in its record, and several of its edges may have one name.  Then
the last one counts: actions come in the order of their ids, and hits and misses after them.  So
the record of a table shows a new edge in the field of its name, unless a later edge of that name
hides it.

## Main definitions

* `Table.Overtaken` — a later action has the same name.
* `Table.Hidden` — a later edge of the same name hides the edge of a port.
* `TableRecord.setNext`, `PipelineRecord.changeTable` — the change of one field of a record.

## Main results

* `Table.get?_nextTables_last` — the last edge of a name counts.
* `Table.nextTables_action`, `Table.nextTables_hidden` — a new edge of an action, shown or hidden.
* `Table.toRecord_setEdge` — what a new edge changes in the record of a table.
-/

namespace LiveSwitch

open Json

/-! ### Maps -/

/-- Where a key goes in a map in the order of its keys. -/
theorem Assoc.exists_split_insert {κ α : Type} [BEq κ] [LawfulBEq κ] [LinearOrder κ]
    {m : List (κ × α)} (h : (m.map Prod.fst).Pairwise (· < ·)) (k : κ) (v : α) :
    ∃ lo mid hi, m = lo ++ (mid ++ hi) ∧ insert k v m = lo ++ (k, v) :: hi ∧
      (∀ x ∈ lo, x.1 < k) ∧ (∀ x ∈ mid, x.1 = k) ∧ ∀ x ∈ hi, k < x.1 := by
  induction m with
  | nil => exact ⟨[], [], [], rfl, rfl, nofun, nofun, nofun⟩
  | cons f m ih =>
    obtain ⟨k', v'⟩ := f
    have hcons := List.pairwise_cons.mp h
    have habove : ∀ x ∈ m, k' < x.1 := fun x hx => hcons.1 x.1 (List.mem_map_of_mem hx)
    rw [insert]
    split
    case isTrue heq =>
      obtain rfl := beq_iff_eq.mp heq
      exact ⟨[], [(k, v')], m, rfl, rfl, nofun, by simp, habove⟩
    case isFalse hne =>
      split
      case isTrue hlt =>
        refine ⟨[], [], (k', v') :: m, rfl, rfl, nofun, nofun, ?_⟩
        exact List.forall_mem_cons.mpr ⟨hlt, fun x hx => lt_trans hlt (habove x hx)⟩
      case isFalse hge =>
        obtain ⟨lo, mid, hi, hm, hins, hlo, hmid, hhi⟩ := ih hcons.2
        have hlt : k' < k := lt_of_le_of_ne (not_lt.mp hge) fun he => hne (beq_iff_eq.mpr he.symm)
        exact ⟨(k', v') :: lo, mid, hi, congrArg _ hm, congrArg _ hins,
          List.forall_mem_cons.mpr ⟨hlt, hlo⟩, hmid, hhi⟩

/-- The last value of a key counts. -/
theorem Json.Object.get?_ofList_last (fields : List (String × Value)) (key : String) :
    (ofList fields).get? key = fields.reverse.lookup key := by
  induction fields using List.reverseRecOn with
  | nil => rfl
  | append_singleton fields f ih =>
    rw [List.reverse_append, List.reverse_singleton, List.singleton_append, Assoc.lookup_cons_eq,
      ← ih]
    exact get?_insertAll_append [] fields f key

/-! ### The next nodes of a table -/

namespace Table

/-- The fields of the edges of actions. -/
def actionFields (p : Pipeline) (actions : ActionTable) (m : List (Int × Edge)) :
    List (String × Value) :=
  m.filterMap fun (id, e) => (actions.get? id).map fun a => (a.name, p.edgeJson e)

variable {p : Pipeline} {actions : ActionTable} {t : Table} {id : Int} {a : Action} {e : Edge}

theorem lookup_toList_map (k key : String) (e? : Option Edge) :
    ((e?.toList.map fun e => (k, p.edgeJson e)).reverse.lookup key) =
      if key = k then e?.map p.edgeJson else none := by
  cases e? with
  | none => simp
  | some e => simp [Assoc.lookup_cons_eq]

/-- The last edge of a name counts. -/
theorem get?_nextTables_last (p : Pipeline) (actions : ActionTable) (t : Table) (key : String) :
    (t.nextTables p actions).get? key =
      (if key = missKey then t.missNext?.map p.edgeJson else none).or
        ((if key = hitKey then t.hitNext?.map p.edgeJson else none).or
          ((actionFields p actions t.nextByAction).reverse.lookup key)) := by
  rw [nextTables_eq, Object.get?_ofList_last, nextFields, List.reverse_append, List.reverse_append,
    List.lookup_append, List.lookup_append, lookup_toList_map, lookup_toList_map]
  rfl

theorem sorted_nextTables (p : Pipeline) (actions : ActionTable) (t : Table) :
    (t.nextTables p actions).Sorted := Object.sorted_ofList _

/-- An action of a higher id hides the edge of an action that has the same name. -/
def Overtaken (actions : ActionTable) (t : Table) (id : Int) (name : String) : Prop :=
  ∃ x ∈ t.nextByAction, id < x.1 ∧ ∃ b, actions.get? x.1 = some b ∧ b.name = name

/-- A later edge of the same name hides the edge of a port: that of another action, or that of hits
or misses. -/
def Hidden (actions : ActionTable) (t : Table) : Port → Prop
  | .action id => ∃ a, actions.get? id = some a ∧ (t.Overtaken actions id a.name ∨
    (a.name = hitKey ∧ t.hitNext?.isSome = true) ∨ a.name = missKey ∧ t.missNext?.isSome = true)
  | .branch _ | .hit | .miss | .base => False

/-- No field has a name that no action of its list has. -/
theorem lookup_actionFields_eq_none (p : Pipeline) {m : List (Int × Edge)} (key : String)
    (h : ∀ x ∈ m, ∀ b, actions.get? x.1 = some b → b.name ≠ key) :
    (actionFields p actions m).reverse.lookup key = none := by
  rw [List.lookup_eq_none_iff]
  rintro ⟨key', v⟩ hmem
  obtain ⟨x, hx, hfield⟩ := List.mem_filterMap.mp (List.mem_reverse.mp hmem)
  obtain ⟨b, hb, heq⟩ := Option.map_eq_some_iff.mp hfield
  cases heq
  simpa using fun heq : key = b.name => h x hx b hb heq.symm

/-- A field has a name that an action of its list has. -/
theorem exists_lookup_actionFields (p : Pipeline) {m : List (Int × Edge)} {x : Int × Edge}
    (hx : x ∈ m) {b : Action} (hb : actions.get? x.1 = some b) :
    ∃ v, (actionFields p actions m).reverse.lookup b.name = some v := by
  rw [← Option.isSome_iff_exists, ← Option.ne_none_iff_isSome, Ne, List.lookup_eq_none_iff]
  intro h
  have hmem : (b.name, p.edgeJson x.2) ∈ actionFields p actions m :=
    List.mem_filterMap.mpr ⟨x, hx, Option.map_eq_some_iff.mpr ⟨b, hb, rfl⟩⟩
  have hne := h _ (List.mem_reverse.mpr hmem)
  simp at hne

theorem actionFields_append (l m : List (Int × Edge)) :
    actionFields p actions (l ++ m) = actionFields p actions l ++ actionFields p actions m :=
  List.filterMap_append

theorem actionFields_cons (ha : actions.get? id = some a) (m : List (Int × Edge)) :
    actionFields p actions ((id, e) :: m) = (a.name, p.edgeJson e) :: actionFields p actions m :=
  List.filterMap_cons_some (congrArg (Option.map _) ha)

/-- The field of an action shows its new edge, if no later action has its name, and all other
fields show what they did. -/
theorem lookup_setActionNext (h : t.Keyed) (ha : actions.get? id = some a) (e : Edge)
    (p : Pipeline) (key : String) :
    (key = a.name ∧ ¬t.Overtaken actions id a.name →
      (actionFields p actions (t.setActionNext id e).nextByAction).reverse.lookup key =
        some (p.edgeJson e)) ∧
    (¬(key = a.name ∧ ¬t.Overtaken actions id a.name) →
      (actionFields p actions (t.setActionNext id e).nextByAction).reverse.lookup key =
        (actionFields p actions t.nextByAction).reverse.lookup key) := by
  obtain ⟨lo, mid, hi, hm, hins, hlo, hmid, hhi⟩ := Assoc.exists_split_insert h id e
  have hafter : (t.setActionNext id e).nextByAction = lo ++ (id, e) :: hi := hins
  have hovertaken : t.Overtaken actions id a.name ↔
      ∃ x ∈ hi, ∃ b, actions.get? x.1 = some b ∧ b.name = a.name := by
    constructor
    · rintro ⟨x, hx, hlt, hb⟩
      rw [hm, List.mem_append, List.mem_append] at hx
      rcases hx with hx | hx | hx
      · exact absurd hlt (lt_asymm (hlo x hx))
      · exact absurd hlt (hmid x hx ▸ lt_irrefl _)
      · exact ⟨x, hx, hb⟩
    · rintro ⟨x, hx, hb⟩
      refine ⟨x, ?_, hhi x hx, hb⟩
      rw [hm]
      exact List.mem_append_right _ (List.mem_append_right _ hx)
  rw [hafter, hm]
  simp only [actionFields_append, actionFields_cons ha, List.reverse_append, List.reverse_cons,
    List.lookup_append, Assoc.lookup_cons_eq, List.lookup_nil]
  refine ⟨?_, fun hother => ?_⟩
  · rintro ⟨rfl, hlast⟩
    have hnone := lookup_actionFields_eq_none p a.name fun x hx b hb hname =>
      hlast (hovertaken.mpr ⟨x, hx, b, hb, hname⟩)
    simp [hnone]
  · by_cases hkey : key = a.name
    · subst hkey
      obtain ⟨x, hx, b, hb, hname⟩ := hovertaken.mp (not_not.mp fun h => hother ⟨rfl, h⟩)
      obtain ⟨v, hv⟩ := exists_lookup_actionFields p hx hb
      rw [hname] at hv
      simp [hv]
    · have hnone := lookup_actionFields_eq_none p key fun x (hx : x ∈ mid) b hb => by
        rw [hmid x hx, ha, Option.some.injEq] at hb
        exact hb ▸ Ne.symm hkey
      simp [hkey, hnone]

theorem missKey_ne_hitKey : missKey ≠ hitKey := by decide

/-- A hit edge shows in its field. -/
theorem nextTables_hit (p : Pipeline) (actions : ActionTable) (t : Table) (e : Edge) :
    nextTables p actions { t with hitNext? := some e } =
      (t.nextTables p actions).insert hitKey (p.edgeJson e) := by
  refine Object.eq_of_get?_eq (sorted_nextTables ..) ((sorted_nextTables ..).insert _ _)
    fun key => ?_
  rw [Object.get?_insert, get?_nextTables_last, get?_nextTables_last]
  by_cases hkey : key = hitKey
  · simp [hkey, missKey_ne_hitKey.symm]
  · simp [hkey]

/-- A miss edge shows in its field. -/
theorem nextTables_miss (p : Pipeline) (actions : ActionTable) (t : Table) (e : Edge) :
    nextTables p actions { t with missNext? := some e } =
      (t.nextTables p actions).insert missKey (p.edgeJson e) := by
  refine Object.eq_of_get?_eq (sorted_nextTables ..) ((sorted_nextTables ..).insert _ _)
    fun key => ?_
  rw [Object.get?_insert, get?_nextTables_last, get?_nextTables_last]
  by_cases hkey : key = missKey <;> simp [hkey]

/-- The edge of an action shows in the field of its name, if none hides it. -/
theorem nextTables_action (h : t.Keyed) (ha : actions.get? id = some a)
    (hvisible : ¬t.Hidden actions (.action id)) (e : Edge) (p : Pipeline) :
    (t.setActionNext id e).nextTables p actions =
      (t.nextTables p actions).insert a.name (p.edgeJson e) := by
  have hclear : ¬(t.Overtaken actions id a.name ∨ (a.name = hitKey ∧ t.hitNext?.isSome = true) ∨
      a.name = missKey ∧ t.missNext?.isSome = true) := fun hhides => hvisible ⟨a, ha, hhides⟩
  rw [not_or, not_or] at hclear
  obtain ⟨hlast, hhit, hmiss⟩ := hclear
  have hundeclared : ∀ (k : String) (e? : Option Edge), ¬(a.name = k ∧ e?.isSome = true) →
      (if a.name = k then e?.map p.edgeJson else none) = none := by
    intro k e? hnot
    rw [ite_eq_right_iff]
    intro hk
    rw [Option.map_eq_none_iff, ← Option.not_isSome_iff_eq_none]
    exact fun hsome => hnot ⟨hk, hsome⟩
  refine Object.eq_of_get?_eq (sorted_nextTables ..) ((sorted_nextTables ..).insert _ _)
    fun key => ?_
  obtain ⟨hown, hother⟩ := lookup_setActionNext h ha e p key
  rw [Object.get?_insert, get?_nextTables_last, get?_nextTables_last]
  by_cases hkey : key = a.name
  · rw [hown ⟨hkey, hlast⟩, if_pos hkey, hkey]
    have hnomiss := hundeclared missKey t.missNext? hmiss
    have hnohit := hundeclared hitKey t.hitNext? hhit
    simp only [setActionNext, hnomiss, hnohit, Option.none_or]
  · rw [hother fun h => hkey h.1, if_neg hkey]
    rfl

/-- The edge of an action does not show, if another one hides it. -/
theorem nextTables_hidden (h : t.Keyed) (hhidden : t.Hidden actions (.action id)) (e : Edge)
    (p : Pipeline) : (t.setActionNext id e).nextTables p actions = t.nextTables p actions := by
  obtain ⟨a, ha, hhides⟩ := hhidden
  refine Object.eq_of_get?_eq (sorted_nextTables ..) (sorted_nextTables ..) fun key => ?_
  obtain ⟨-, hother⟩ := lookup_setActionNext h ha e p key
  rw [get?_nextTables_last, get?_nextTables_last]
  by_cases hkey : key = a.name ∧ ¬t.Overtaken actions id a.name
  · -- then the edge of hits or misses has the name
    obtain ⟨rfl, hlast⟩ := hkey
    rcases hhides.resolve_left hlast with ⟨hname, hsome⟩ | ⟨hname, hsome⟩
    · obtain ⟨e', he'⟩ := Option.isSome_iff_exists.mp hsome
      simp [hname, missKey_ne_hitKey.symm, setActionNext, he']
    · obtain ⟨e', he'⟩ := Option.isSome_iff_exists.mp hsome
      simp [hname, setActionNext, he']
  · rw [hother hkey]
    rfl

end Table

/-! ### Fields of records -/

/-- Sets the field of a slot. -/
def TableRecord.setNext (slot : TableSlot) (target? : Option String) (r : TableRecord) :
    TableRecord :=
  match slot with
  | .baseDefault => { r with baseNext? := target? }
  | .hit | .miss | .action _ =>
    { r with nextTables := r.nextTables.insert slot.text (Record.textOrNull target?) }

/-- Changes the table called `name`. -/
def PipelineRecord.changeTable (name : String) (f : TableRecord → TableRecord)
    (r : PipelineRecord) : Option PipelineRecord :=
  (changeNamed name f r.tables).map fun tables => { r with tables }

/-- A change that puts each entry in its own place changes nothing. -/
theorem replaceNamed_eq_self {α : Type} [Named α] {name : String} {f : α → Option (List α)}
    (hf : ∀ a bs, f a = some bs → bs = [a]) {l l' : List α} (h : replaceNamed name f l = some l') :
    l' = l := by
  induction l generalizing l' with
  | nil => cases h
  | cons a l ih =>
    rw [replaceNamed] at h
    split at h
    · obtain ⟨bs, hbs, rfl⟩ := Option.map_eq_some_iff.mp h
      rw [hf a bs hbs, List.singleton_append]
    · obtain ⟨rest, hrest, rfl⟩ := Option.map_eq_some_iff.mp h
      rw [ih hrest]

/-- Records in which a table is left as it is are the same records. -/
theorem Records.eq_of_changeTable_id {r r' : Records} {pipeline name : String}
    (h : r.changePipeline pipeline (·.changeTable name id) = some r') : r' = r := by
  obtain ⟨pipelines, hpipelines, rfl⟩ := Option.map_eq_some_iff.mp h
  rw [replaceNamed_eq_self (fun p bs hbs => ?_) hpipelines]
  obtain ⟨q, hq, rfl⟩ := Option.map_eq_some_iff.mp hbs
  obtain ⟨tables, htables, rfl⟩ := Option.map_eq_some_iff.mp hq
  rw [replaceNamed_eq_self (fun t ts hts => (Option.some.inj hts).symm) htables]

/-- An edge that is set at the port of a slot shows in the field of the slot, unless a later edge
hides it. -/
theorem Table.toRecord_setEdge {g : Program} {t : Table} {slot : TableSlot} {q : Port}
    (hq : g.portOf? t slot = some q) (h : t.Keyed) (e : Edge) (p : Pipeline) :
    ∃ t', (Node.table t).setEdge q e = .table t' ∧ t'.identity = t.identity ∧
      (¬t.Hidden g.actions q → t'.toRecord p g.actions =
        (t.toRecord p g.actions).setNext slot (p.nodeName? e)) ∧
      (t.Hidden g.actions q → t'.toRecord p g.actions = t.toRecord p g.actions) := by
  cases slot with
  | baseDefault =>
    cases hq
    exact ⟨_, rfl, rfl, fun _ => rfl, fun hhidden => hhidden.elim⟩
  | hit =>
    cases hq
    refine ⟨_, rfl, rfl, fun _ => ?_, fun hhidden => hhidden.elim⟩
    simp only [toRecord, TableRecord.setNext, nextTables_hit]
    rfl
  | miss =>
    cases hq
    refine ⟨_, rfl, rfl, fun _ => ?_, fun hhidden => hhidden.elim⟩
    simp only [toRecord, TableRecord.setNext, nextTables_miss]
    rfl
  | action name =>
    obtain ⟨id, hid, rfl⟩ := Option.map_eq_some_iff.mp hq
    obtain ⟨a, ha, rfl⟩ := Program.exists_of_actionNamed? hid
    refine ⟨t.setActionNext id e, rfl, rfl, fun hvisible => ?_, fun hhidden => ?_⟩
    · simp only [toRecord, TableRecord.setNext, nextTables_action h ha hvisible]
      rfl
    · simp only [toRecord, nextTables_hidden h hhidden]
      rfl

namespace Pipeline.Renamed

variable {actions : ActionTable} {p p' : Pipeline}

/-- A table of a pipeline is changed. -/
theorem toRecord_changeTable (hkeyed : ∀ t, .table t ∈ p.nodes → t.Keyed) (h : p.Renamed id p')
    (hnames : (p.tables.map nameOf).Nodup) {t t' : Table} (ht : t ∈ p.tables)
    (htables : p'.tables = p.tables.map fun b => if nameOf b = nameOf t then t' else b)
    (hconditionals : p'.conditionals = p.conditionals) {f : TableRecord → TableRecord}
    (hf : t'.toRecord p' actions = f (t.toRecord p actions)) :
    (p.toRecord actions).changeTable (nameOf t) f = some (p'.toRecord actions) := by
  have hnames' : ((p.toRecord actions).tables.map nameOf).Nodup := by
    rw [toRecord, List.map_map]
    exact hnames
  have hchange := changeNamed_eq hnames' (List.mem_map_of_mem ht) f
  have hrecords : p'.tables.map (Table.toRecord p' actions) =
      (p.toRecord actions).tables.map fun b =>
        if nameOf b = nameOf (t.toRecord p actions) then f (t.toRecord p actions) else b := by
    rw [htables, toRecord, List.map_map, List.map_map]
    refine List.map_congr_left fun b hb => ?_
    show Table.toRecord p' actions (if nameOf b = nameOf t then t' else b) =
      if nameOf b = nameOf t then f (t.toRecord p actions) else b.toRecord p actions
    split
    · exact hf
    · have hnode := mem_tables.mp hb
      exact (h.table actions hnode (hkeyed b hnode)).trans
        ((refl p).table actions hnode (hkeyed b hnode)).symm
  have hcs : p.conditionals.map (Conditional.toRecord p') =
      p.conditionals.map (Conditional.toRecord p) :=
    h.conditionals_same fun c => mem_conditionals.mp
  rw [PipelineRecord.changeTable]
  refine (congrArg (Option.map _) hchange).trans ?_
  rw [← hrecords, Option.map_some]
  simp only [toRecord, h.identity, h.extra, h.init, id, hconditionals, hcs]

end Pipeline.Renamed

end LiveSwitch
