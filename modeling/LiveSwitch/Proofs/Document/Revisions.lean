import LiveSwitch.Proofs.Document.Reloading
import LiveSwitch.Proofs.Program.Nodes

/-!
# Edits as revisions of the document

A document says what a program is as lists of records in the order of ids, with names in the
place of edges.  An edit of the program shows in its document as a small revision: an entry is
added at the end of a list, dropped from it or changed in one field.  When a node is deleted, the
fields that named it become null.

## Main definitions

* `Records` — what the document of a program lists; `Program.records`, `Records.encode`.
* `replaceNamed` — the change of the one entry of a list that has a name.
* `Edit.revise` — the revision that an edit makes.
* `Edit.ComesLast` — a new object gets the largest id.

## Main results

* `Program.document_eq` — the document is the encoding of the records.
* `Program.records_setPipeline` — a change of one pipeline is a change of its record.
* `Program.revise_array` — the revisions of the edits of register arrays.
-/

namespace LiveSwitch

open Json

/-! ### Records -/

/-- What the document of a program says. -/
structure Records where
  arrays : List ArrayRecord
  calculations : List CalculationRecord
  actions : List ActionRecord
  pipelines : List PipelineRecord
  extra : Object
  deriving DecidableEq, Repr

/-- The document. -/
def Records.encode (r : Records) : Value :=
  .object (r.extra.insertAll
    [("register_arrays", .array (r.arrays.map (·.encode))),
      ("calculations", .array (r.calculations.map (·.encode))),
      ("actions", .array (r.actions.map (·.encode))),
      ("pipelines", .array (r.pipelines.map (·.encode)))])

/-- The records of a program. -/
def Program.records (g : Program) : Records :=
  { arrays := g.arrays.objects.map (·.toRecord)
    calculations := g.calculations.objects.map (·.toRecord)
    actions := g.actions.actions.map (·.toRecord)
    pipelines := g.pipelines.objects.map (Pipeline.toRecord g.actions)
    extra := g.extra }

theorem Program.document_eq (g : Program) : g.document = g.records.encode := by
  simp only [document, sections, records, Records.encode, List.map_map]
  rfl

instance : Named ArrayRecord := ⟨ArrayRecord.identity⟩

instance : Named TableRecord := ⟨TableRecord.identity⟩

instance : Named ConditionalRecord := ⟨ConditionalRecord.identity⟩

instance : Named PipelineRecord := ⟨PipelineRecord.identity⟩

/-! ### One entry of a list -/

section

variable {α : Type} [Named α]

/-- Puts entries in the place of the first one called `name`, if there is one. -/
def replaceNamed (name : String) (f : α → Option (List α)) : List α → Option (List α)
  | [] => none
  | a :: l =>
    if nameOf a = name then (f a).map (· ++ l) else (replaceNamed name f l).map (a :: ·)

/-- Changes the entry called `name`. -/
def changeNamed (name : String) (f : α → α) : List α → Option (List α) :=
  replaceNamed name fun a => some [f a]

/-- Drops the entry called `name`. -/
def dropNamed (name : String) : List α → Option (List α) :=
  replaceNamed name fun _ => some []

variable {l l₁ l₂ : List α} {a : α}

theorem replaceNamed_append (h : ∀ b ∈ l₁, nameOf b ≠ nameOf a) (f : α → Option (List α)) :
    replaceNamed (nameOf a) f (l₁ ++ a :: l₂) = (f a).map fun bs => l₁ ++ (bs ++ l₂) := by
  induction l₁ with
  | nil => simp [replaceNamed]
  | cons b l₁ ih =>
    obtain ⟨hb, h⟩ := List.forall_mem_cons.mp h
    simp [replaceNamed, hb, ih h, Function.comp_def]

/-- Where names are unique, the other entries around the one of a name have other names. -/
theorem split_named (hl : (l.map nameOf).Nodup) (ha : a ∈ l) :
    ∃ l₁ l₂, l = l₁ ++ a :: l₂ ∧ (∀ b ∈ l₁, nameOf b ≠ nameOf a) ∧
      ∀ b ∈ l₂, nameOf b ≠ nameOf a := by
  obtain ⟨l₁, l₂, rfl⟩ := List.append_of_mem ha
  rw [List.map_append, List.map_cons, List.nodup_middle, List.nodup_cons, List.mem_append,
    not_or] at hl
  exact ⟨l₁, l₂, rfl, fun b hb he => hl.1.1 (he ▸ List.mem_map_of_mem hb),
    fun b hb he => hl.1.2 (he ▸ List.mem_map_of_mem hb)⟩

theorem changeNamed_eq (hl : (l.map nameOf).Nodup) (ha : a ∈ l) (f : α → α) :
    changeNamed (nameOf a) f l = some (l.map fun b => if nameOf b = nameOf a then f a else b) := by
  obtain ⟨l₁, l₂, rfl, h₁, h₂⟩ := split_named hl ha
  have hid : ∀ l : List α, (∀ b ∈ l, nameOf b ≠ nameOf a) →
      (l.map fun b => if nameOf b = nameOf a then f a else b) = l :=
    fun l h => (List.map_congr_left fun b hb => if_neg (h b hb)).trans (List.map_id' l)
  rw [changeNamed, replaceNamed_append h₁, List.map_append, List.map_cons, hid l₁ h₁, hid l₂ h₂,
    if_pos rfl]
  rfl

theorem dropNamed_eq (hl : (l.map nameOf).Nodup) (ha : a ∈ l) :
    dropNamed (nameOf a) l = some (l.filter fun b => nameOf b != nameOf a) := by
  obtain ⟨l₁, l₂, rfl, h₁, h₂⟩ := split_named hl ha
  have hid : ∀ l : List α, (∀ b ∈ l, nameOf b ≠ nameOf a) →
      (l.filter fun b => nameOf b != nameOf a) = l :=
    fun l h => List.filter_eq_self.mpr fun b hb => bne_iff_ne.mpr (h b hb)
  rw [dropNamed, replaceNamed_append h₁, List.filter_append, List.filter_cons_of_neg (by simp),
    hid l₁ h₁, hid l₂ h₂]
  rfl

end

/-! ### Revisions of records -/

namespace ConditionalRecord

/-- Sets the field of a branch. -/
def setNext (branch : Branch) (target? : Option String) (r : ConditionalRecord) :
    ConditionalRecord :=
  match branch with
  | .onTrue => { r with trueNext? := target? }
  | .onFalse => { r with falseNext? := target? }

/-- Changes the names in the fields of the edges. -/
def mapEdges (ρ : Option String → Option String) (r : ConditionalRecord) : ConditionalRecord :=
  { r with trueNext? := ρ r.trueNext?, falseNext? := ρ r.falseNext? }

end ConditionalRecord

/-- Changes the names in the fields of the edges. -/
def TableRecord.mapEdges (ρ : Option String → Option String) (r : TableRecord) : TableRecord :=
  { r with
    baseNext? := ρ r.baseNext?
    nextTables := r.nextTables.map fun f => (f.1, Record.textOrNull (ρ f.2.string?)) }

namespace PipelineRecord

/-- Changes the names in the fields of all edges. -/
def mapEdges (ρ : Option String → Option String) (r : PipelineRecord) : PipelineRecord :=
  { r with
    init? := ρ r.init?
    tables := r.tables.map (·.mapEdges ρ)
    conditionals := r.conditionals.map (·.mapEdges ρ) }

/-- Makes every edge null that leads to the node called `name`. -/
def unname (name : String) : PipelineRecord → PipelineRecord :=
  mapEdges fun target? => target?.filter (· != name)

/-- Adds a conditional at the end. -/
def append (c : ConditionalRecord) (r : PipelineRecord) : PipelineRecord :=
  { r with conditionals := r.conditionals ++ [c] }

/-- Changes the conditional called `name`. -/
def changeConditional (name : String) (f : ConditionalRecord → ConditionalRecord)
    (r : PipelineRecord) : Option PipelineRecord :=
  (changeNamed name f r.conditionals).map fun conditionals => { r with conditionals }

/-- Drops the conditional called `name`, and the edges to it. -/
def dropConditional (name : String) (r : PipelineRecord) : Option PipelineRecord :=
  (dropNamed name r.conditionals).map fun conditionals => unname name { r with conditionals }

/-- Drops the table called `name`, and the edges to it. -/
def dropTable (name : String) (r : PipelineRecord) : Option PipelineRecord :=
  (dropNamed name r.tables).map fun tables => unname name { r with tables }

end PipelineRecord

namespace Records

/-- Changes the pipeline called `name`. -/
def changePipeline (name : String) (f : PipelineRecord → Option PipelineRecord) (r : Records) :
    Option Records :=
  (replaceNamed name (fun p => (f p).map ([·])) r.pipelines).map fun pipelines =>
    { r with pipelines }

/-- Changes the register array called `name`. -/
def changeArray (name : String) (f : ArrayRecord → ArrayRecord) (r : Records) :
    Option Records :=
  (changeNamed name f r.arrays).map fun arrays => { r with arrays }

end Records

namespace Edit

/-- The edits other than the insertion of a table, which may bring actions along, and the change
of its edges, which are those of actions. -/
def isRevision : Edit → Bool
  | insertTable .. | setTableNext .. => false
  | _ => true

/-- Whether an edit takes an id for a node. -/
def insertsNode : Edit → Bool
  | insertConditional .. | insertFlex .. | insertTable .. => true
  | _ => false

/-- The name of the register array that a name leads to. -/
def arrayName (g : Program) (name : String) : String := ((g.array? name).map nameOf).getD name

/-- The object that an edit inserts gets an id above those that it is listed with. -/
def ComesLast (g : Program) : Edit → Prop
  | insertConditional pipeline _ | insertFlex pipeline .. =>
    ∀ p, g.pipeline? pipeline = some p → ∀ c ∈ p.conditionals, idOf c < g.conditionalIds.next
  | insertArray .. => g.arrays.Ahead
  | _ => True

/-- The revision of the records of the program `g` that an edit makes. -/
def revise (donor g : Program) : Edit → Records → Option Records
  | insertConditional pipeline name, r => do
    let c ← (donor.pipeline? pipeline).bind (·.conditional? name)
    r.changePipeline pipeline fun p => some (p.append
      { identity := { name, id := g.conditionalIds.next, source? := c.identity.source? }
        expression? := c.condition?.map Condition.json
        trueNext? := none, falseNext? := none, flex := false, extra := c.extra })
  | insertFlex pipeline name falseNext? trueNext?, r =>
    r.changePipeline pipeline fun p => some (p.append
      { identity := { name, id := g.conditionalIds.next }
        expression? := none, trueNext?, falseNext?, flex := true, extra := [] })
  | setConditionalNext pipeline name branch target?, r =>
    r.changePipeline pipeline (·.changeConditional name (·.setNext branch target?))
  | deleteConditional pipeline name, r => r.changePipeline pipeline (·.dropConditional name)
  | deleteTable pipeline name, r => r.changePipeline pipeline (·.dropTable name)
  | insertArray name size bitwidth, r =>
    some { r with arrays := r.arrays ++
      [{ identity := { name, id := g.arrays.nextId }, size, bitwidth, extra := [] }] }
  | resizeArray name size, r => r.changeArray (arrayName g name) fun a => { a with size }
  | rewidenArray name bitwidth, r =>
    r.changeArray (arrayName g name) fun a => { a with bitwidth }
  | deleteArray name, r =>
    (dropNamed (arrayName g name) r.arrays).map fun arrays => { r with arrays }
  | rehashArray _, r => some r
  | insertTable .., _ | setTableNext .., _ => none

end Edit

/-! ### Edges in records -/

namespace Json.Object

/-- A change of all values does not mind when fields are set. -/
theorem insert_map (φ : Value → Value) (k : String) (v : Value) (o : Object) :
    insert k (φ v) (o.map fun f => (f.1, φ f.2)) = (insert k v o).map fun f => (f.1, φ f.2) := by
  induction o with
  | nil => rfl
  | cons f o ih =>
    obtain ⟨k', v'⟩ := f
    simp only [insert, List.map_cons, Assoc.insert] at ih ⊢
    split
    · rfl
    · split
      · rfl
      · rw [List.map_cons, ih]

theorem ofList_map (φ : Value → Value) (fields : List (String × Value)) :
    ofList (fields.map fun f => (f.1, φ f.2)) = (ofList fields).map fun f => (f.1, φ f.2) := by
  induction fields using List.reverseRecOn with
  | nil => rfl
  | append_singleton fields f ih =>
    simp only [ofList, insertAll] at ih ⊢
    rw [List.map_append, List.foldl_append, List.foldl_append, ih]
    exact insert_map φ f.1 f.2 _

end Json.Object

namespace Pipeline

/-- Between two pipelines the nodes of the first one keep their edges, which lead to other names,
or nowhere. -/
structure Renamed (ρ : Option String → Option String) (p p' : Pipeline) : Prop where
  identity : p'.identity = p.identity
  extra : p'.extra = p.extra
  init : p'.nodeName? p'.init = ρ (p.nodeName? p.init)
  edges : ∀ n ∈ p.nodes, ∀ q e, n.edgeAt? q = some e → p'.nodeName? e = ρ (p.nodeName? e)

namespace Renamed

variable {ρ : Option String → Option String} {p p' : Pipeline}

theorem refl (p : Pipeline) : p.Renamed id p :=
  ⟨rfl, rfl, rfl, fun _ _ _ _ _ => rfl⟩

theorem conditional (h : p.Renamed ρ p') {c : Conditional} (hc : .conditional c ∈ p.nodes) :
    c.toRecord p' = (c.toRecord p).mapEdges ρ := by
  have ht := h.edges _ hc (.branch .onTrue) _ rfl
  have hf := h.edges _ hc (.branch .onFalse) _ rfl
  simp only [Conditional.next] at ht hf
  simp only [Conditional.toRecord, ConditionalRecord.mapEdges, ht, hf]

theorem table (h : p.Renamed ρ p') (actions : ActionTable) {t : Table} (ht : .table t ∈ p.nodes)
    (hkeyed : t.Keyed) : t.toRecord p' actions = (t.toRecord p actions).mapEdges ρ := by
  have hedge : ∀ e ∈ t.edges, p'.nodeName? e = ρ (p.nodeName? e) := by
    intro e he
    obtain ⟨q, hq⟩ := hkeyed.edgeAt? he
    exact h.edges _ ht q e hq
  have hjson : ∀ e ∈ t.edges,
      p'.edgeJson e = Record.textOrNull (ρ (p.edgeJson e).string?) := by
    intro e he
    rw [edgeJson, edgeJson, Loader.string?_textOrNull, hedge e he]
  simp only [Table.edges, List.mem_append, List.mem_map, Option.mem_toList] at hjson
  have hfields : t.nextFields p' actions = (t.nextFields p actions).map fun f =>
      (f.1, Record.textOrNull (ρ f.2.string?)) := by
    simp only [Table.nextFields, List.map_append, List.map_filterMap, List.map_map]
    congr 1
    · congr 1
      · refine List.filterMap_congr fun x hx => ?_
        rw [Option.map_map]
        refine Option.map_congr fun a _ => congrArg (Prod.mk a.name) ?_
        exact hjson _ (Or.inl (Or.inl (Or.inl ⟨x, hx, rfl⟩)))
      · refine List.map_congr_left fun e he => congrArg (Prod.mk hitKey) ?_
        exact hjson e (Or.inl (Or.inl (Or.inr (Option.mem_toList.mp he))))
    · refine List.map_congr_left fun e he => congrArg (Prod.mk missKey) ?_
      exact hjson e (Or.inl (Or.inr (Option.mem_toList.mp he)))
  have hbase := hedge t.baseNext (by simp [Table.edges])
  simp only [Table.toRecord, TableRecord.mapEdges, Table.nextTables_eq, hbase, hfields,
    ← Object.ofList_map fun v => Record.textOrNull (ρ v.string?)]

/-- The records of the nodes that stay. -/
theorem tables (h : p.Renamed ρ p') (actions : ActionTable)
    (hkeyed : ∀ t, .table t ∈ p.nodes → t.Keyed) {ts : List Table}
    (hts : ∀ t ∈ ts, .table t ∈ p.nodes) : ts.map (Table.toRecord p' actions) =
      (ts.map (Table.toRecord p actions)).map (·.mapEdges ρ) := by
  rw [List.map_map]
  exact List.map_congr_left fun t ht => h.table actions (hts t ht) (hkeyed t (hts t ht))

theorem conditionals (h : p.Renamed ρ p') {cs : List Conditional}
    (hcs : ∀ c ∈ cs, .conditional c ∈ p.nodes) : cs.map (Conditional.toRecord p') =
      (cs.map (Conditional.toRecord p)).map (·.mapEdges ρ) := by
  rw [List.map_map]
  exact List.map_congr_left fun c hc => h.conditional (hcs c hc)

/-- If all names stay, so do the records. -/
theorem tables_same (h : p.Renamed id p') (actions : ActionTable)
    (hkeyed : ∀ t, .table t ∈ p.nodes → t.Keyed) :
    p.tables.map (Table.toRecord p' actions) = p.tables.map (Table.toRecord p actions) := by
  have hts : ∀ t ∈ p.tables, .table t ∈ p.nodes := fun t => mem_tables.mp
  rw [h.tables actions hkeyed hts, ← (refl p).tables actions hkeyed hts]

theorem conditionals_same (h : p.Renamed id p') {cs : List Conditional}
    (hcs : ∀ c ∈ cs, .conditional c ∈ p.nodes) :
    cs.map (Conditional.toRecord p') = cs.map (Conditional.toRecord p) := by
  rw [h.conditionals hcs, ← (refl p).conditionals hcs]

variable {actions : ActionTable} (hkeyed : ∀ t, .table t ∈ p.nodes → t.Keyed)

include hkeyed in
/-- A conditional joins the nodes of a pipeline. -/
theorem toRecord_append (h : p.Renamed id p') {c : Conditional} (htables : p'.tables = p.tables)
    (hconditionals : p'.conditionals = p.conditionals ++ [c]) :
    p'.toRecord actions = (p.toRecord actions).append (c.toRecord p') := by
  have hcs : p.conditionals.map (Conditional.toRecord p') =
      p.conditionals.map (Conditional.toRecord p) :=
    h.conditionals_same fun c => mem_conditionals.mp
  simp only [toRecord, PipelineRecord.append, h.identity, h.extra, h.init, id, htables,
    hconditionals, h.tables_same actions hkeyed, List.map_append, hcs, List.map_cons, List.map_nil]

include hkeyed in
/-- A conditional of a pipeline is changed. -/
theorem toRecord_change (h : p.Renamed id p') (hnames : (p.conditionals.map nameOf).Nodup)
    {c c' : Conditional} (hc : c ∈ p.conditionals) (htables : p'.tables = p.tables)
    (hconditionals : p'.conditionals =
      p.conditionals.map fun b => if nameOf b = nameOf c then c' else b)
    {f : ConditionalRecord → ConditionalRecord} (hf : c'.toRecord p' = f (c.toRecord p)) :
    (p.toRecord actions).changeConditional (nameOf c) f = some (p'.toRecord actions) := by
  have hnames' : ((p.toRecord actions).conditionals.map nameOf).Nodup := by
    rw [toRecord, List.map_map]
    exact hnames
  have hchange := changeNamed_eq hnames' (List.mem_map_of_mem hc) f
  have hrecords : p'.conditionals.map (Conditional.toRecord p') =
      (p.toRecord actions).conditionals.map fun b =>
        if nameOf b = nameOf (c.toRecord p) then f (c.toRecord p) else b := by
    rw [hconditionals, toRecord, List.map_map, List.map_map]
    refine List.map_congr_left fun b hb => ?_
    show Conditional.toRecord p' (if nameOf b = nameOf c then c' else b) =
      if nameOf b = nameOf c then f (c.toRecord p) else b.toRecord p
    split
    · exact hf
    · have hsame : [b].map (Conditional.toRecord p') = [b].map (Conditional.toRecord p) :=
        h.conditionals_same fun d hd => mem_conditionals.mp (List.mem_singleton.mp hd ▸ hb)
      exact List.head_eq_of_cons_eq hsame
  rw [PipelineRecord.changeConditional]
  refine (congrArg (Option.map _) hchange).trans ?_
  rw [← hrecords, Option.map_some]
  simp only [toRecord, h.identity, h.extra, h.init, id, htables, h.tables_same actions hkeyed]

include hkeyed in
/-- A conditional of a pipeline is dropped, and the edges to it. -/
theorem toRecord_dropConditional {name : String}
    (h : p.Renamed (fun target? => target?.filter (· != name)) p')
    (hnames : (p.conditionals.map nameOf).Nodup) {c : Conditional} (hc : c ∈ p.conditionals)
    (hname : nameOf c = name) (htables : p'.tables = p.tables)
    (hconditionals : p'.conditionals = p.conditionals.filter fun b => nameOf b != name) :
    (p.toRecord actions).dropConditional name = some (p'.toRecord actions) := by
  have hnames' : ((p.toRecord actions).conditionals.map nameOf).Nodup := by
    rw [toRecord, List.map_map]
    exact hnames
  have hdrop := dropNamed_eq hnames' (List.mem_map_of_mem hc)
  have hts : ∀ t ∈ p.tables, .table t ∈ p.nodes := fun t => mem_tables.mp
  have hcs : ∀ c ∈ p'.conditionals, .conditional c ∈ p.nodes := fun c hc =>
    mem_conditionals.mp (List.mem_filter.mp (hconditionals ▸ hc)).1
  rw [PipelineRecord.dropConditional, ← hname]
  refine (congrArg (Option.map _) hdrop).trans ?_
  rw [Option.map_some, toRecord, List.filter_map]
  simp only [PipelineRecord.unname, PipelineRecord.mapEdges, toRecord, h.identity, h.extra, h.init,
    htables, h.tables actions hkeyed hts, h.conditionals hcs]
  subst hname
  rw [hconditionals]
  rfl

include hkeyed in
/-- A table of a pipeline is dropped, and the edges to it. -/
theorem toRecord_dropTable {name : String}
    (h : p.Renamed (fun target? => target?.filter (· != name)) p')
    (hnames : (p.tables.map nameOf).Nodup) {t : Table} (ht : t ∈ p.tables)
    (hname : nameOf t = name) (htables : p'.tables = p.tables.filter fun b => nameOf b != name)
    (hconditionals : p'.conditionals = p.conditionals) :
    (p.toRecord actions).dropTable name = some (p'.toRecord actions) := by
  have hnames' : ((p.toRecord actions).tables.map nameOf).Nodup := by
    rw [toRecord, List.map_map]
    exact hnames
  have hdrop := dropNamed_eq hnames' (List.mem_map_of_mem ht)
  have hts : ∀ t ∈ p'.tables, .table t ∈ p.nodes := fun t ht =>
    mem_tables.mp (List.mem_filter.mp (htables ▸ ht)).1
  have hcs : ∀ c ∈ p.conditionals, .conditional c ∈ p.nodes := fun c => mem_conditionals.mp
  rw [PipelineRecord.dropTable, ← hname]
  refine (congrArg (Option.map _) hdrop).trans ?_
  rw [Option.map_some, toRecord, List.filter_map]
  simp only [PipelineRecord.unname, PipelineRecord.mapEdges, toRecord, h.identity, h.extra, h.init,
    hconditionals, h.tables actions hkeyed hts, h.conditionals hcs]
  subst hname
  rw [htables]
  rfl

end Renamed

end Pipeline

/-! ### Programs -/

namespace Program

variable {g g' donor : Program} {s s' : Store} {pipeline name : String} {p p' : Pipeline}

/-- A change of one pipeline is a change of its record. -/
theorem records_setPipeline (hg : g.pipelines.Consistent) (hp : g.pipeline? pipeline = some p)
    {f : PipelineRecord → Option PipelineRecord}
    (hf : f (p.toRecord g.actions) = some (p'.toRecord g.actions)) :
    g.records.changePipeline pipeline f = some (g.setPipeline pipeline p').records := by
  obtain ⟨hmem, hname⟩ := ObjectMap.mem_of_get? hp
  obtain ⟨l₁, l₂, hsplit, h₁, h₂⟩ := split_named hg.names hmem
  have hreplace := @replaceNamed_append _ _ (l₁.map (Pipeline.toRecord g.actions))
    (l₂.map (Pipeline.toRecord g.actions)) (p.toRecord g.actions) (List.forall_mem_map.mpr h₁)
    fun p => (f p).map ([·])
  have hrest : ∀ l : List Pipeline, (∀ q ∈ l, nameOf q ≠ nameOf p) →
      (l.map fun q => if nameOf q == pipeline then p' else q) = l := by
    intro l hl
    refine (List.map_congr_left fun q hq => if_neg ?_).trans (List.map_id' l)
    exact fun he => hl q hq ((beq_iff_eq.mp he).trans hname.symm)
  have hobjects : (g.setPipeline pipeline p').pipelines.objects = l₁ ++ p' :: l₂ := by
    simp only [setPipeline, ObjectMap.modify]
    rw [hsplit, List.map_append, List.map_cons, hrest l₁ h₁, hrest l₂ h₂,
      if_pos (beq_iff_eq.mpr hname)]
  have hpipelines : g.records.pipelines = l₁.map (Pipeline.toRecord g.actions) ++
      p.toRecord g.actions :: l₂.map (Pipeline.toRecord g.actions) := by
    rw [records, hsplit, List.map_append, List.map_cons]
  rw [Records.changePipeline, hpipelines, ← hname]
  refine (congrArg (Option.map _) hreplace).trans ?_
  rw [hf]
  simp only [Option.map_some, records]
  rw [hname, hobjects, List.map_append, List.map_cons]
  rfl

/-- A change of one register array is a change of its record. -/
theorem records_setArray (hg : g.arrays.Consistent) {a a' : RegisterArray}
    (ha : g.array? name = some a) {f : ArrayRecord → ArrayRecord}
    (hf : a'.toRecord = f a.toRecord) :
    g.records.changeArray (nameOf a) f = some (g.setArray name a').records := by
  have hnames : (g.records.arrays.map nameOf).Nodup := by
    rw [records, List.map_map]
    exact hg.names
  have hchange := changeNamed_eq hnames (List.mem_map_of_mem (mem_of_array? ha)) f
  rw [Records.changeArray]
  refine (congrArg (Option.map _) hchange).trans ?_
  rw [Option.map_some, setArray_eq ha]
  simp only [records, ObjectMap.modify, List.map_map]
  congr 2
  refine List.map_congr_left fun b _ => ?_
  show (if nameOf b = nameOf a then f a.toRecord else b.toRecord) =
    (if nameOf b == nameOf a then a' else b).toRecord
  by_cases hb : nameOf b = nameOf a
  · rw [if_pos hb, if_pos (beq_iff_eq.mpr hb), hf]
  · rw [if_neg hb, if_neg (mt beq_iff_eq.mp hb)]

/-- An array with the record of the one in whose place it is put changes nothing. -/
theorem records_setArray_same (hg : g.arrays.Consistent) {a a' : RegisterArray}
    (ha : g.array? name = some a) (h : a'.toRecord = a.toRecord) :
    (g.setArray name a').records = g.records := by
  rw [setArray_eq ha]
  simp only [records, ObjectMap.modify, List.map_map]
  congr 1
  refine List.map_congr_left fun b hb => ?_
  show (if nameOf b == nameOf a then a' else b).toRecord = b.toRecord
  by_cases heq : nameOf b = nameOf a
  · rw [if_pos (beq_iff_eq.mpr heq), h, ObjectMap.eq_of_name_eq hg.names hb (mem_of_array? ha) heq]
  · rw [if_neg (mt beq_iff_eq.mp heq)]

/-- A rehash gives the filter and the cleared array other cells only. -/
theorem records_rehashArray (hg : g.arrays.Consistent) {r : RehashSpec}
    (h : g.rehashArray s r = .ok (g', s')) : g'.records = g.records := by
  obtain ⟨target, reset, inputs, ht, hr, rfl, -⟩ := rehashArray_ok h
  have htarget : (target.rehashed inputs s).1.toRecord = target.toRecord := by
    rw [RegisterArray.rehashed_eq]
    rfl
  have hcleared : (reset.cleared (target.rehashed inputs s).2).1.toRecord = reset.toRecord := by
    simp [RegisterArray.toRecord, RegisterArray.cleared, RegisterArray.zeros, RegisterArray.create,
      Storage.zeros]
  have hg₁ : (g.setArray r.target (target.rehashed inputs s).1).arrays.Consistent :=
    consistent_setArray hg ht (congrArg ArrayRecord.identity htarget)
  -- the array to be cleared may be the filter, which has the record of the target
  have hreset : ∃ b, (g.setArray r.target (target.rehashed inputs s).1).array? r.reset = some b ∧
      b.toRecord = reset.toRecord := by
    rw [array?_setArray hg ht (congrArg ArrayRecord.identity htarget), hr, Option.map_some]
    refine ⟨_, rfl, ?_⟩
    split
    case isTrue hname =>
      rw [htarget, ObjectMap.eq_of_name_eq hg.names (mem_of_array? hr) (mem_of_array? ht) hname]
    case isFalse => rfl
  obtain ⟨b, hb, hrecord⟩ := hreset
  exact (records_setArray_same hg₁ hb (hcleared.trans hrecord.symm)).trans
    (records_setArray_same hg ht htarget)

theorem arrayName_eq {a : RegisterArray} (ha : g.array? name = some a) :
    Edit.arrayName g name = nameOf a := by
  rw [Edit.arrayName, ha]
  rfl

/-- The edits of register arrays change the records of register arrays. -/
theorem revise_array (hg : g.arrays.Consistent) {e : Edit} (he : e.onNodes = false)
    (hlast : e.ComesLast g)
    (hrun : e.run donor (g, s) = .ok (g', s')) : e.revise donor g g.records = some g'.records := by
  cases e with
  | insertArray name size bitwidth =>
    obtain ⟨arrays, harrays, rfl, -⟩ := insertArray_ok hrun
    have hplace := ObjectMap.place_eq_append (l := g.arrays.objects)
      (a := (RegisterArray.zeros ⟨name, g.arrays.ids.next, none⟩ size bitwidth [] s).1)
      hlast
    rw [ObjectMap.insertNew_of_free harrays (ObjectMap.Ahead.free hlast)]
    simp only [Edit.revise, records, hplace, List.map_append, List.map_cons, List.map_nil]
    simp [RegisterArray.toRecord, RegisterArray.zeros, RegisterArray.create, Storage.zeros,
      ObjectMap.nextId]
  | resizeArray name size =>
    obtain ⟨hg₁, rfl⟩ := pair_eq_ok.mp hrun
    obtain ⟨a, ha, rfl⟩ := resizeArray_ok hg₁
    rw [Edit.revise, arrayName_eq ha]
    exact records_setArray hg ha rfl
  | rewidenArray name bitwidth =>
    obtain ⟨hg₁, rfl⟩ := pair_eq_ok.mp hrun
    obtain ⟨a, ha, rfl⟩ := rewidenArray_ok hg₁
    rw [Edit.revise, arrayName_eq ha]
    exact records_setArray hg ha rfl
  | deleteArray name =>
    obtain ⟨hg₁, rfl⟩ := pair_eq_ok.mp hrun
    obtain ⟨a, ha, rfl⟩ := deleteArray_ok hg₁
    have hnames : (g.records.arrays.map nameOf).Nodup := by
      rw [records, List.map_map]
      exact hg.names
    have hdrop := dropNamed_eq hnames (List.mem_map_of_mem (mem_of_array? ha))
    rw [Edit.revise, arrayName_eq ha]
    refine (congrArg (Option.map _) hdrop).trans ?_
    simp only [Option.map_some, records, hg.objects_remove ha, List.filter_map]
    rfl
  | rehashArray r =>
    exact congrArg some (records_rehashArray hg hrun).symm
  | insertConditional | insertFlex | setConditionalNext | deleteConditional | insertTable
  | setTableNext | deleteTable => cases he

end Program

end LiveSwitch
