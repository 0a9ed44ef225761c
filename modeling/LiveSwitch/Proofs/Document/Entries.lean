import LiveSwitch.Proofs.Document.Reloading
import LiveSwitch.Proofs.Program.Wiring

/-!
# Entries of a document

The entry of one object can be asked for by its name, or it can be looked up in the whole document:
in the section of its kind, for a node in the lists of its pipeline.  As long as names are unique
and the slots of pipelines agree with the history of their graphs, both ways lead to the same entry,
and every entry that the document has is counted once.  Only the name of an array that lost its id
to another array leads to the entry of that other array, while the document has none of the name.

## Main definitions

* `Json.Value.listed`, `Json.Value.isNamed` — what a value lists under a key, and its name.
* `Document.nodeEntries` — the entries of nodes that the entry of a pipeline lists.
* `Document.entries` — the entries of a kind in a document.
* `Document.entriesIn` — those of them among which a name is looked up.
* `Program.Legible` — what the two ways of looking up rest on.

## Main results

* `Program.perm_nodeEntries` — a pipeline lists one entry for each node of a kind.
* `Program.Legible.entry?_eq` — an entry is the one of its name in the document.
* `Program.Legible.entry?_stray` — what a name leads to whose array has lost its id.
* `Program.Legible.count_eq` — the number of objects is the number of entries.
-/

namespace LiveSwitch

open Json

namespace Json.Value

/-- The items that a value lists under a key. -/
def listed (key : String) (v : Value) : List Value := ((v.field? key).bind items?).getD []

/-- Whether an entry has a name. -/
def isNamed (name : String) (entry : Value) : Bool := entry.field? "name" == some (.string name)

end Json.Value

namespace Document

/-- The entries of the nodes of a kind that the entry of a pipeline lists. -/
def nodeEntries (kind : ObjectKind) (pipeline : Value) : List Value :=
  match kind with
  | .node => pipeline.listed "tables" ++ pipeline.listed "conditionals"
  | .conditional => pipeline.listed "conditionals"
  | .flex => (pipeline.listed "conditionals").filter fun c => c.field? "flex" == some (.bool true)
  | .table => pipeline.listed "tables"
  | _ => []

/-- The entries of the objects of a kind in a document. -/
def entries (kind : ObjectKind) (document : Value) : List Value :=
  match kind with
  | .pipeline => document.listed "pipelines"
  | .node | .conditional | .flex | .table =>
    (document.listed "pipelines").flatMap (nodeEntries kind)
  | .action => document.listed "actions"
  | .registerArray => document.listed "register_arrays"
  | .calculation => document.listed "calculations"

/-- The entries among which an object of a kind is looked up: nodes in the pipeline of a name only,
and nowhere without such a name. -/
def entriesIn (kind : ObjectKind) (pipeline? : Option String) (document : Value) : List Value :=
  match kind with
  | .node | .conditional | .flex | .table =>
    (pipeline?.bind fun P => (document.listed "pipelines").find? (Value.isNamed P)).elim []
      (nodeEntries kind)
  | .pipeline | .action | .registerArray | .calculation => entries kind document

end Document

open Document

/-! ### Entries by name -/

section

variable {known : List String} {identity : Identity} {fields : List (String × Value)}
  {extra : Object} {name : String}

/-- The name of a record is the name of its entry. -/
theorem isNamed_toObject (hknown : (Identity.keys ++ known).Nodup)
    (hfields : (fields.map Prod.fst).Sublist known) :
    (Value.object (Record.toObject identity fields extra)).isNamed name =
      (identity.name == name) := by
  have hname : ("name", Value.string identity.name) ∈ identity.encode ++ fields := by
    simp [Identity.encode]
  have hget : (Value.object (Record.toObject identity fields extra)).field? "name" =
      some (.string identity.name) := Record.get?_fields hknown hfields hname
  rw [Value.isNamed, hget, Bool.eq_iff_iff, beq_iff_eq, beq_iff_eq, Option.some.injEq,
    Value.string.injEq]

variable {α : Type} [Named α] {entry : α → Value}

theorem find?_map_isNamed (hentry : ∀ a, (entry a).isNamed name = (nameOf a == name))
    (l : List α) :
    (l.map entry).find? (Value.isNamed name) = (l.find? fun a => nameOf a == name).map entry := by
  rw [List.find?_map]
  congr 2
  exact funext hentry

/-- With unique names, the entry of a name is the one that is found. -/
theorem get?_map_of_isNamed {m : ObjectMap α} (hm : m.names.Nodup)
    (hentry : ∀ a, (entry a).isNamed name = (nameOf a == name)) {x : Value}
    (hx : x ∈ m.objects.map entry) (hname : x.isNamed name) : (m.get? name).map entry = some x := by
  obtain ⟨a, ha, rfl⟩ := List.mem_map.mp hx
  rw [hentry, beq_iff_eq] at hname
  rw [← hname, ObjectMap.get?_of_mem hm ha, Option.map_some]

end

/-- A list that has an entry of a name once at most. -/
theorem find?_isNamed_eq {l : List Value} {name : String} {x? : Option Value}
    (h : ∀ x, x ∈ l ∧ x.isNamed name = true ↔ x? = some x) :
    l.find? (Value.isNamed name) = x? := by
  cases hfound : l.find? (Value.isNamed name) with
  | some y => exact ((h y).mp ⟨List.mem_of_find?_eq_some hfound, List.find?_some hfound⟩).symm
  | none =>
    cases x? with
    | none => rfl
    | some x => exact absurd ((h x).mpr rfl).2 (List.find?_eq_none.mp hfound x ((h x).mpr rfl).1)

namespace Program

variable {g : Program} {p : Pipeline} {kind : ObjectKind} {name : String}

theorem isNamed_array (a : RegisterArray) : a.toRecord.encode.isNamed name = (nameOf a == name) :=
  isNamed_toObject ArrayRecord.nodup_keys (ArrayRecord.keys_fields _)

theorem isNamed_calculation (c : Calculation) :
    c.toRecord.encode.isNamed name = (nameOf c == name) :=
  isNamed_toObject CalculationRecord.nodup_keys (CalculationRecord.keys_fields _)

theorem isNamed_action (a : Action) : a.toRecord.encode.isNamed name = (nameOf a == name) :=
  isNamed_toObject ActionRecord.nodup_keys (ActionRecord.keys_fields _)

theorem isNamed_pipeline (p : Pipeline) :
    (p.toRecord g.actions).encode.isNamed name = (nameOf p == name) :=
  isNamed_toObject PipelineRecord.nodup_keys (PipelineRecord.keys_fields _)

theorem isNamed_conditional (c : Conditional) :
    (c.toRecord p).encode.isNamed name = (nameOf c == name) :=
  isNamed_toObject ConditionalRecord.nodup_keys (ConditionalRecord.keys_fields _)

theorem isNamed_table (t : Table) :
    (t.toRecord p g.actions).encode.isNamed name = (nameOf t == name) :=
  isNamed_toObject TableRecord.nodup_keys (TableRecord.keys_fields _)

/-! ### Lists of entries -/

theorem listed_document {key : String} {items : List Value}
    (h : g.root.get? key = some (.array items)) : g.document.listed key = items := by
  show ((g.root.get? key).bind Value.items?).getD [] = items
  rw [h]
  rfl

theorem listed_pipelines (g : Program) : g.document.listed "pipelines" =
    g.pipelines.objects.map fun p => (p.toRecord g.actions).encode :=
  listed_document (get?_pipelines g)

theorem listed_arrays (g : Program) :
    g.document.listed "register_arrays" = g.arrays.objects.map fun a => a.toRecord.encode :=
  listed_document (get?_arrays g)

theorem listed_calculations (g : Program) :
    g.document.listed "calculations" = g.calculations.objects.map fun c => c.toRecord.encode :=
  listed_document (get?_calculations g)

theorem listed_actions (g : Program) :
    g.document.listed "actions" = g.actions.actions.map fun a => a.toRecord.encode :=
  listed_document (get?_actions g)

theorem listed_tables (actions : ActionTable) (p : Pipeline) :
    (p.toRecord actions).encode.listed "tables" =
      p.tables.map fun t => (t.toRecord p actions).encode := by
  have hget : (p.toRecord actions).toObject.get? "tables" =
      some (.array ((p.tables.map (Table.toRecord p actions)).map (·.encode))) :=
    PipelineRecord.get?_toObject (by simp [PipelineRecord.fields, Pipeline.toRecord])
  show (((p.toRecord actions).toObject.get? "tables").bind Value.items?).getD [] = _
  rw [hget, List.map_map]
  rfl

theorem listed_conditionals (actions : ActionTable) (p : Pipeline) :
    (p.toRecord actions).encode.listed "conditionals" =
      p.conditionals.map fun c => (c.toRecord p).encode := by
  have hget : (p.toRecord actions).toObject.get? "conditionals" =
      some (.array ((p.conditionals.map (Conditional.toRecord p)).map (·.encode))) :=
    PipelineRecord.get?_toObject (by simp [PipelineRecord.fields, Pipeline.toRecord])
  show (((p.toRecord actions).toObject.get? "conditionals").bind Value.items?).getD [] = _
  rw [hget, List.map_map]
  rfl

/-! ### Nodes -/

/-- The entry of a conditional says that it is a flex node exactly when it is one. -/
theorem field?_flex {c : Conditional}
    (hc : Object.Free (Identity.keys ++ ConditionalRecord.keys) c.extra) :
    ((c.toRecord p).encode.field? "flex" == some (.bool true)) = c.flex := by
  have hfield : (c.toRecord p).encode.field? "flex" = (c.toRecord p).toObject.get? "flex" := rfl
  cases hflex : c.flex with
  | true =>
    have hget : (c.toRecord p).toObject.get? "flex" = some (.bool true) :=
      ConditionalRecord.get?_toObject (by
        simp [ConditionalRecord.fields, Conditional.toRecord, hflex])
    rw [hfield, hget]
    rfl
  | false =>
    have hget : (c.toRecord p).toObject.get? "flex" = none := by
      refine Record.get?_fields_eq_none hc (by decide) fun f hf => ?_
      have hkey : f.1 ∈ ["name", "id", "source_info", "expression", "true_next", "false_next"] := by
        rcases List.mem_append.mp hf with hf | hf
        · have hkeys := (Record.keys_encode _).subset (List.mem_map_of_mem hf)
          exact List.mem_append_left _ hkeys
        · simp only [ConditionalRecord.fields, Conditional.toRecord, hflex, Bool.false_eq_true,
            if_false, List.append_nil, List.mem_cons, List.not_mem_nil, or_false] at hf
          rcases hf with rfl | rfl | rfl <;> simp
      exact fun heq => absurd (heq ▸ hkey) (by decide)
    rw [hfield, hget]
    rfl

theorem isNamed_nodeEntry {n : Node} {x : Value} (h : g.nodeEntry? kind p n = some x) :
    x.isNamed name = (n.name == name) := by
  cases n with
  | conditional c =>
    have hx : x = (c.toRecord p).encode := by
      cases kind <;> simp_all [ nodeEntry?]
    rw [hx, isNamed_conditional]
    rfl
  | table t =>
    have hx : x = (t.toRecord p g.actions).encode := by
      cases kind <;> simp_all [ nodeEntry?]
    rw [hx, isNamed_table]
    rfl

/-- The entry of a pipeline lists one entry for each of its nodes of a kind. -/
theorem perm_nodeEntries
    (hextra : ∀ c ∈ p.conditionals,
      Object.Free (Identity.keys ++ ConditionalRecord.keys) c.extra) :
    (nodeEntries kind (p.toRecord g.actions).encode).Perm
      (p.nodes.filterMap fun n => g.nodeEntry? kind p n) := by
  refine List.Perm.trans ?_ ((Pipeline.perm_nodes p).filterMap _)
  rw [List.filterMap_append, List.filterMap_map, List.filterMap_map]
  have hflex : (p.conditionals.map fun c => (c.toRecord p).encode).filter
      (fun c => c.field? "flex" == some (.bool true)) =
        p.conditionals.filterMap fun c => if c.flex then some (c.toRecord p).encode else none := by
    rw [List.filter_map, ← List.filterMap_eq_map, ← List.filterMap_eq_filter,
      List.filterMap_filterMap]
    refine List.filterMap_congr fun c hc => ?_
    simp only [Function.comp_apply, Option.guard_apply, field?_flex (hextra c hc)]
    split <;> rfl
  -- nodes of other kinds have no entry, and a flex node is a conditional that says so
  cases kind <;>
    simp [nodeEntries, listed_tables, listed_conditionals, hflex, Function.comp_def, nodeEntry?]

/-! ### Both ways of looking up -/

/-- What an entry is found by in both ways: names of their own, pipelines whose slots agree with the
history of their graphs, and conditionals that say whether they are flex nodes only once. -/
structure Legible (g : Program) : Prop where
  pipelines : g.pipelines.names.Nodup
  arrays : g.arrays.Consistent
  calculations : g.calculations.names.Nodup
  graphs : ∃ log, g.Follows log
  extras : ∀ p ∈ g.pipelines.objects, ∀ c ∈ p.conditionals,
    Object.Free (Identity.keys ++ ConditionalRecord.keys) c.extra

namespace Legible

variable {pipeline? : Option String} {x : Value}

/-- In a pipeline, the entry of a name is the entry of the node that the name finds. -/
theorem mem_nodeEntries_iff (h : g.Legible) (hp : p ∈ g.pipelines.objects) :
    x ∈ nodeEntries kind (p.toRecord g.actions).encode ∧ x.isNamed name = true ↔
      ((p.node? name).bind fun n => g.nodeEntry? kind p n) = some x := by
  obtain ⟨log, hlog⟩ := h.graphs
  obtain ⟨seat, hseat⟩ := hlog p hp
  rw [(perm_nodeEntries (h.extras p hp)).mem_iff, List.mem_filterMap]
  constructor
  · rintro ⟨⟨n, hn, hentry⟩, hname⟩
    rw [isNamed_nodeEntry hentry, beq_iff_eq] at hname
    rw [← hname, hseat.indexed.node?_of_mem hn, Option.bind_some, hentry]
  · intro hentry
    obtain ⟨n, hn, hentry⟩ := Option.bind_eq_some_iff.mp hentry
    have hname := (hseat.indexed.node?_eq_some_iff.mp hn).2
    refine ⟨⟨n, Pipeline.mem_nodes_of_node? hn, hentry⟩, ?_⟩
    rw [isNamed_nodeEntry hentry, hname, beq_self_eq_true]

/-- The entry of a pipeline is found by its name. -/
theorem find?_pipeline (g : Program) (P : String) :
    (g.document.listed "pipelines").find? (Value.isNamed P) =
      (g.pipeline? P).map fun p => (p.toRecord g.actions).encode := by
  rw [listed_pipelines]
  exact find?_map_isNamed isNamed_pipeline _

/-- Among the entries of the nodes of a pipeline, a name has one entry at most. -/
theorem mem_entriesIn_node_iff (h : g.Legible) :
    x ∈ (pipeline?.bind fun P => (g.document.listed "pipelines").find? (Value.isNamed P)).elim []
        (nodeEntries kind) ∧ x.isNamed name = true ↔
      (pipeline?.bind fun P => (g.pipeline? P).bind fun p =>
        (p.node? name).bind fun n => g.nodeEntry? kind p n) = some x := by
  cases pipeline? with
  | none => simp
  | some P =>
    rw [Option.bind_some, Option.bind_some, find?_pipeline]
    cases hp : g.pipeline? P with
    | none => simp
    | some p => exact h.mem_nodeEntries_iff (ObjectMap.mem_of_get? hp).1

/-- The entry of an object is the first entry of its name in the document, where it belongs. -/
theorem entry?_eq (h : g.Legible) (kind : ObjectKind) (pipeline? : Option String) {name : String}
    (hname : kind = .registerArray → g.arrays.strays.lookup name = none) :
    g.entry? kind pipeline? name =
      (entriesIn kind pipeline? g.document).find? (Value.isNamed name) := by
  cases kind with
  | node | conditional | flex | table =>
    exact (find?_isNamed_eq fun _ => h.mem_entriesIn_node_iff).symm
  | pipeline => exact (find?_pipeline g name).symm
  | action =>
    rw [entriesIn, entries, listed_actions]
    exact (find?_map_isNamed isNamed_action _).symm
  | registerArray =>
    rw [entriesIn, entries, listed_arrays, entry?, array?, ObjectMap.lookup?, hname rfl]
    exact (find?_map_isNamed isNamed_array _).symm
  | calculation =>
    rw [entriesIn, entries, listed_calculations]
    exact (find?_map_isNamed isNamed_calculation _).symm

/-- Only actions can have several entries of one name. -/
theorem entry?_eq_some (h : g.Legible) (hkind : kind ≠ .action)
    (hx : x ∈ entriesIn kind pipeline? g.document) (hname : x.isNamed name) :
    g.entry? kind pipeline? name = some x := by
  cases kind with
  | node | conditional | flex | table => exact h.mem_entriesIn_node_iff.mp ⟨hx, hname⟩
  | action => exact absurd rfl hkind
  | pipeline =>
    rw [entriesIn, entries, listed_pipelines] at hx
    exact get?_map_of_isNamed h.pipelines isNamed_pipeline hx hname
  | registerArray =>
    rw [entriesIn, entries, listed_arrays] at hx
    have hfound := get?_map_of_isNamed h.arrays.names isNamed_array hx hname
    obtain ⟨a, ha, rfl⟩ := List.mem_map.mp hx
    rw [isNamed_array, beq_iff_eq] at hname
    rw [ entry?, array?, ObjectMap.lookup?, ← hname, h.arrays.strays a ha, hname]
    exact hfound
  | calculation =>
    rw [entriesIn, entries, listed_calculations] at hx
    exact get?_map_of_isNamed h.calculations isNamed_calculation hx hname

/-- The name of an array that has lost its id leads to the entry of the array with the id, and the
document has no entry of the name. -/
theorem entry?_stray (h : g.Legible) {id : Int} (hname : g.arrays.strays.lookup name = some id) :
    g.entry? .registerArray pipeline? name =
        (g.arrays.getById? id).map (·.toRecord.encode) ∧
      ∀ x ∈ entriesIn .registerArray pipeline? g.document, ¬x.isNamed name := by
  refine ⟨by rw [ entry?, array?, ObjectMap.lookup?, hname], fun x hx hnamed => ?_⟩
  rw [entriesIn, entries, listed_arrays] at hx
  obtain ⟨a, ha, rfl⟩ := List.mem_map.mp hx
  rw [isNamed_array, beq_iff_eq] at hnamed
  rw [← hnamed, h.arrays.strays a ha] at hname
  cases hname

/-- Nodes of a kind are counted by their entries. -/
theorem length_entries_node (h : g.Legible) (kind : ObjectKind) {P : Node → Bool}
    (hP : ∀ p n, Option.isSome ( g.nodeEntry? kind p n) = P n) :
    ((g.document.listed "pipelines").flatMap (nodeEntries kind)).length = g.nodes.countP P := by
  rw [listed_pipelines, List.flatMap_map, List.length_flatMap, nodes,
    List.countP_flatMap]
  refine congrArg List.sum (List.map_congr_left fun p hp => ?_)
  rw [(perm_nodeEntries (h.extras p hp)).length_eq, List.length_filterMap_eq_countP]
  exact List.countP_congr fun n _ => by rw [hP]

/-- Every object has one entry. -/
theorem count_eq (h : g.Legible) (kind : ObjectKind) :
    g.count kind = (entries kind g.document).length := by
  cases kind with
  | node =>
    have hnode := h.length_entries_node .node (P := fun _ => true) fun p n => by cases n <;> rfl
    rw [List.countP_true] at hnode
    exact hnode.symm
  | conditional =>
    exact (h.length_entries_node .conditional fun p n => by cases n <;> rfl).symm
  | flex =>
    refine (h.length_entries_node .flex fun p n => ?_).symm
    cases n with
    | table t => rfl
    | conditional c => cases hflex : c.flex <;> simp [ nodeEntry?, Node.kind, hflex]
  | table => exact (h.length_entries_node .table fun p n => by cases n <;> rfl).symm
  | pipeline =>
    rw [entries, listed_pipelines, List.length_map]
    rfl
  | action =>
    rw [entries, listed_actions, List.length_map]
    rfl
  | registerArray =>
    rw [entries, listed_arrays, List.length_map]
    rfl
  | calculation =>
    rw [entries, listed_calculations, List.length_map]
    rfl

end Legible

end Program

end LiveSwitch
