import LiveSwitch.Proofs.Document.Counters
import LiveSwitch.Proofs.Switch.Generations

/-!
# Ids of objects

Every kind of objects has a counter, conditionals and flex nodes one in common, and a new object
gets its id from there.  As long as no object has the largest id, the ids in use lie below the
counter, which only moves on, and so an id that was in use once is not given to another object.
After the largest id the counter comes round, and then that is no longer so; but it stays an integer
of 32 bits, as do all ids.

## Main definitions

* `IdCounter.Gives` — an id was given while a counter moved on.
* `Program.CountsOn` — one program comes after another: counters moved on, and what is new has got
  its id from there.
* `Program.Ordered` — nodes have ids of their own, and the counters are ahead of all ids.

## Main results

* `Edit.countsOn_run`, `Program.countsOn_entry` — edits and table entries count on.
* `Program.Sound.numbered`, `Edit.ordered_run` — programs are numbered, up to the largest id.
* `Program.Reached.inRange` — ids and counters are integers of 32 bits.
-/

namespace LiveSwitch

namespace IdCounter

/-- An id was given while a counter moved on from one id to another one. -/
structure Gives (low : Prop) (next id next' : Int) : Prop where
  before : Leads low next id
  after : Leads low (following id) next'

variable {low low' : Prop} {a next id next' b : Int}

theorem Gives.first (low : Prop) (next : Int) : Gives low next next (following next) :=
  ⟨.refl low next, .refl low _⟩

theorem Gives.widen (h : Gives low next id next') (ha : Leads low a next) (hb : Leads low next' b) :
    Gives low a id b :=
  ⟨ha.trans h.before, h.after.trans hb⟩

theorem Gives.imp (h : Gives low next id next') (hlow : low' → low) : Gives low' next id next' :=
  ⟨h.before.imp hlow, h.after.imp hlow⟩

end IdCounter

open IdCounter

/-- A table operation keeps the identity of the table. -/
theorem Table.EntryChange.tag_eq {t t' : Table} (h : t.EntryChange t') {p : Pipeline}
    {table : String} (ht : p.table? table = some t) (n : Node) (hn : p.node? table = some n) :
    (n.mapTable fun _ => t').tag = n.tag := by
  rw [Pipeline.node?_of_table? ht, Option.some.injEq] at hn
  rw [← hn]
  exact Prod.ext h.keepsGraph.1 rfl

namespace Program

/-- The counters of the second program come after those of the first, and its objects are ones of
the first or have got their ids in between.  No counter has come round under a condition. -/
structure CountsOn (low : Prop) (g g' : Program) : Prop where
  next : ∀ kind, Leads low (g.nextId kind) (g'.nextId kind)
  fresh : ∀ kind, ∀ x ∈ g'.holdings kind, x ∈ g.holdings kind ∨
    Gives low (g.nextId kind) x.2.id (g'.nextId kind)

/-- Nodes have ids of their own, and the counters are ahead of all ids. -/
structure Ordered (g : Program) : Prop where
  nodes : UniqueIds g.HasNode
  below : ∀ kind, ∀ id ∈ g.idsInUse kind, id < g.nextId kind

variable {low low' : Prop} {g g' g'' : Program}

/-! ### Unique ids -/

/-- Nodes of one kind have different ids, in one pipeline and across pipelines. -/
theorem Sound.nodup_nodeHoldings (h : g.Sound) (hids : UniqueIds g.HasNode) (table : Bool) :
    ((g.nodeHoldings table).map fun x => x.2.id).Nodup := by
  rw [nodeHoldings, List.map_flatMap, List.nodup_flatMap]
  constructor
  · intro p hp
    rw [List.map_map]
    have hnames : ((p.nodes.filter fun n => n.table?.isSome == table).map nameOf).Nodup :=
      (h.nodup_names hp).sublist (List.filter_sublist.map _)
    refine nodup_ids hnames fun n hn m hm hid => ?_
    rw [List.mem_filter, beq_iff_eq] at hn hm
    exact (name_eq_of_id_eq hids hp hp hn.1 hm.1 (hn.2.trans hm.2.symm) hid).2
  · have hnames := h.pipelinesConsistent.names
    rw [ObjectMap.names, List.Nodup, List.pairwise_map] at hnames
    refine hnames.imp_of_mem fun {p q} hp hq hne => ?_
    simp only [Function.onFun, List.disjoint_left, List.mem_map, List.mem_filter, beq_iff_eq]
    rintro _ ⟨_, ⟨n, ⟨hn, hntable⟩, rfl⟩, rfl⟩ ⟨_, ⟨m, ⟨hm, hmtable⟩, rfl⟩, hid⟩
    exact hne (name_eq_of_id_eq hids hp hq hn hm (hntable.trans hmtable.symm) hid.symm).1

/-- Programs that came from documents are numbered, as far as they are ordered. -/
theorem Sound.numbered (h : g.Sound) (ho : g.Ordered) : g.Numbered where
  unique kind := by
    cases kind with
    | node | conditional | flex => exact h.nodup_nodeHoldings ho.nodes false
    | table => exact h.nodup_nodeHoldings ho.nodes true
    | pipeline =>
      rw [idsInUse_pipeline]
      exact h.pipelinesConsistent.ids.nodup
    | action =>
      rw [idsInUse_action]
      exact h.actionIds.nodup
    | registerArray =>
      rw [idsInUse_registerArray]
      exact h.arraysConsistent.ids.nodup
    | calculation =>
      rw [idsInUse_calculation]
      exact h.calculationsConsistent.ids.nodup
  below := ho.below

theorem Ordered.lt_nextNode (h : g.Ordered) {P : String} {x : Identity × Bool}
    (hx : g.HasNode P x) : x.1.id < g.nextNode x.2 := by
  have hlt : ∀ table, x.2 = table → x.1.id < g.nextNode table := by
    intro table htable
    have hmem : x.1.id ∈ (g.nodeHoldings table).map fun x => x.2.id :=
      mem_nodeIds.mpr ⟨P, x.1, htable ▸ hx, rfl⟩
    cases table with
    | false => exact h.below .conditional _ hmem
    | true => exact h.below .table _ hmem
  exact hlt x.2 rfl

theorem ordered_start : ({} : Program).Ordered where
  nodes := ⟨fun hx => by obtain ⟨p, hp, -⟩ := hx; cases hp⟩
  below kind := by cases kind <;> exact nofun

/-- A loaded program is ordered, up to the largest id. -/
theorem ordered_ofDocument {s s' : Store} {v : Json.Value} (h : ofDocument s v = .ok (g, s'))
    (hmax : g.BelowMax) : g.Ordered where
  nodes := (nodeIds_ofDocument h).1
  below kind := (countsUp_ofDocument h kind (hmax kind)).above

/-! ### Counting on -/

namespace CountsOn

theorem refl (low : Prop) (g : Program) : CountsOn low g g :=
  ⟨fun _ => .refl low _, fun _ _ hx => Or.inl hx⟩

theorem trans (h : CountsOn low g g') (h' : CountsOn low g' g'') : CountsOn low g g'' where
  next kind := (h.next kind).trans (h'.next kind)
  fresh kind x hx := by
    rcases h'.fresh kind x hx with hx | hx
    · exact (h.fresh kind x hx).imp_right fun hgives => hgives.widen (.refl low _) (h'.next kind)
    · exact Or.inr (hx.widen (h.next kind) (.refl low _))

theorem imp (h : CountsOn low g g') (hlow : low' → low) : CountsOn low' g g' where
  next kind := (h.next kind).imp hlow
  fresh kind x hx := (h.fresh kind x hx).imp_right fun hgives => hgives.imp hlow

/-- Integers of 32 bits are followed by such. -/
theorem inRange (h : CountsOn low g g') (hg : g.InRange) : g'.InRange where
  ids kind id hid := by
    obtain ⟨x, hx, rfl⟩ := List.mem_map.mp hid
    rcases h.fresh kind x hx with hx | hx
    · exact hg.ids kind _ (List.mem_map_of_mem hx)
    · exact hx.before.valid (hg.next kind)
  next kind := (h.next kind).valid (hg.next kind)

/-- Counters stay ahead, up to the largest id. -/
theorem below (h : CountsOn low g g') (hlow : low) (hmax : g'.BelowMax)
    (hg : ∀ kind, ∀ id ∈ g.idsInUse kind, id < g.nextId kind) (kind : ObjectKind) :
    ∀ id ∈ g'.idsInUse kind, id < g'.nextId kind := by
  intro id hid
  have hid' := hmax kind id hid
  obtain ⟨x, hx, rfl⟩ := List.mem_map.mp hid
  rcases h.fresh kind x hx with hx | hx
  · exact Int.lt_of_lt_of_le (hg kind _ (List.mem_map_of_mem hx)) ((h.next kind).le hlow)
  · have hle := hx.after.le hlow
    rw [following_of_lt hid'] at hle
    omega

/-- A program without new nodes stays ordered, up to the largest id. -/
theorem ordered (h : CountsOn low g g') (hlow : low) (hmax : g'.BelowMax) (hg : g.Ordered)
    (hnodes : ∀ P x, g'.HasNode P x → g.HasNode P x) : g'.Ordered where
  nodes := hg.nodes.mono hnodes
  below := h.below hlow hmax hg.below

/-- What is new has an id from beyond the counter. -/
theorem next_le_of_fresh (h : CountsOn low g g') (hlow : low) {kind : ObjectKind}
    {x : Option String × Identity} (hx : x ∈ g'.holdings kind) (hold : x ∉ g.holdings kind) :
    g.nextId kind ≤ x.2.id :=
  ((h.fresh kind x hx).resolve_left hold).before.le hlow

/-- Only pipelines and the counters of nodes change: pipelines keep their identities, and new
nodes have got their ids from the counter of their kind. -/
theorem of_pipelines {pipelines : ObjectMap Pipeline} {conditionalIds tableIds : IdCounter}
    (hg' : g' = { g with pipelines, conditionalIds, tableIds })
    (hids : pipelines.ids = g.pipelines.ids)
    (hpipelines : ∀ p ∈ pipelines.objects, ∃ q ∈ g.pipelines.objects, p.identity = q.identity)
    (hnext : ∀ table, Leads low (g.nextNode table) (g'.nextNode table))
    (hnodes : ∀ P x, g'.HasNode P x → g.HasNode P x ∨
      Gives low (g.nextNode x.2) x.1.id (g'.nextNode x.2)) : CountsOn low g g' := by
  have hholdings : ∀ table, ∀ x ∈ g'.nodeHoldings table, x ∈ g.nodeHoldings table ∨
      Gives low (g.nextNode table) x.2.id (g'.nextNode table) := by
    intro table x hx
    obtain ⟨P, hP, hnode⟩ := mem_nodeHoldings.mp hx
    exact (hnodes P _ hnode).imp_left fun hnode => mem_nodeHoldings.mpr ⟨P, hP, hnode⟩
  subst hg'
  constructor
  · intro kind
    cases kind with
    | node | conditional | flex => exact hnext false
    | table => exact hnext true
    | pipeline =>
      show Leads low g.pipelines.ids.next pipelines.ids.next
      rw [hids]
      exact .refl low _
    | action | registerArray | calculation => exact .refl low _
  · intro kind x hx
    cases kind with
    | node | conditional | flex => exact hholdings false x hx
    | table => exact hholdings true x hx
    | pipeline =>
      obtain ⟨p, hp, rfl⟩ := List.mem_map.mp hx
      obtain ⟨q, hq, heq⟩ := hpipelines p hp
      exact Or.inl (List.mem_map.mpr ⟨q, hq, by rw [heq]⟩)
    | action | registerArray | calculation => exact Or.inl hx

end CountsOn

variable {pipeline name : String} {p p' : Pipeline} {w : Wiring} {seat : Nat → Seat}

/-- A node of the pipeline that changes has a new tag, or it was there. -/
theorem hasNode_of_setPipeline (hp : g.pipeline? pipeline = some p)
    (hidentity : p'.identity = p.identity) {P : String} {x : Identity × Bool}
    (hx : (g.setPipeline pipeline p').HasNode P x) :
    g.HasNode P x ∨ (P = pipeline ∧ (∃ n ∈ p'.nodes, n.tag = x) ∧ ∀ m ∈ p.nodes, m.tag ≠ x) := by
  obtain ⟨hmem, hname⟩ := ObjectMap.mem_of_get? hp
  have hname' : p'.name = pipeline := (congrArg Identity.name hidentity).trans hname
  rcases hasNode_setPipeline hname' hx with ⟨rfl, hn⟩ | hx
  · by_cases hold : ∃ m ∈ p.nodes, m.tag = x
    · exact Or.inl ⟨p, hmem, hname, hold⟩
    · exact Or.inr ⟨rfl, hn, fun m hm htag => hold ⟨m, hm, htag⟩⟩
  · exact Or.inl hx

/-- A change of a node that keeps its identity brings no node. -/
theorem hasNode_of_modifyNode (hp : g.pipeline? pipeline = some p) (hseat : p.Follows w seat)
    {f : Node → Node} (hf : ∀ n, p.node? name = some n → (f n).tag = n.tag) {P : String}
    {x : Identity × Bool} (hx : (g.setPipeline pipeline (p.modifyNode name f)).HasNode P x) :
    g.HasNode P x := by
  rcases hasNode_of_setPipeline hp (p.identity_modifyNode name f) hx with
    hx | ⟨rfl, ⟨n, hn, rfl⟩, hnew⟩
  · exact hx
  · obtain ⟨m, hm, rfl⟩ := hseat.indexed.mem_nodes_modifyNode hn
    refine absurd ?_ (hnew m hm)
    split
    case isTrue hname => rw [hf m (hname ▸ hseat.indexed.node?_of_mem hm)]
    case isFalse => rfl

theorem hasNode_of_removeNode (hp : g.pipeline? pipeline = some p) (hseat : p.Follows w seat)
    {n : Node} (hn : p.node? name = some n) {P : String} {x : Identity × Bool}
    (hx : (g.setPipeline pipeline (p.removeNode name)).HasNode P x) : g.HasNode P x := by
  obtain ⟨r, hr⟩ := find?_of_node? hn
  rcases hasNode_of_setPipeline hp (p.identity_removeNode name) hx with
    hx | ⟨rfl, ⟨m, hm, rfl⟩, hnew⟩
  · exact hx
  · exact absurd rfl (hnew m ((hseat.indexed.mem_nodes_removeNode_iff name).mp hm).1)

theorem hasNode_of_insertNode (hp : g.pipeline? pipeline = some p) (hseat : p.Follows w seat)
    {n : Node} {r : NodeRef} (hins : p.insertNode n = .ok (r, p')) {P : String}
    {x : Identity × Bool} (hx : (g.setPipeline pipeline p').HasNode P x) :
    (P = pipeline ∧ x = n.tag) ∨ g.HasNode P x := by
  rcases hasNode_of_setPipeline hp (Pipeline.identity_insertNode hins) hx with
    hx | ⟨rfl, ⟨m, hm, rfl⟩, hnew⟩
  · exact Or.inr hx
  · rcases (Pipeline.mem_nodes_insertNode_iff hseat.slots hins).mp hm with rfl | hm
    · exact Or.inl ⟨rfl, rfl⟩
    · exact absurd rfl (hnew m hm)

namespace CountsOn

/-- One pipeline changes, and new nodes have got their ids from the counter of their kind. -/
theorem setPipeline (hp : g.pipeline? pipeline = some p) (hidentity : p'.identity = p.identity)
    {conditionalIds tableIds : IdCounter}
    (hg' : g' = { g.setPipeline pipeline p' with conditionalIds, tableIds })
    (hnext : ∀ table, Leads low (g.nextNode table) (g'.nextNode table))
    (hnodes : ∀ P x, g'.HasNode P x → g.HasNode P x ∨
      Gives low (g.nextNode x.2) x.1.id (g'.nextNode x.2)) : CountsOn low g g' := by
  refine of_pipelines hg' rfl (fun q hq => ?_) hnext hnodes
  obtain ⟨a, ha, rfl⟩ := ObjectMap.mem_modify.mp hq
  split
  · exact ⟨p, (ObjectMap.mem_of_get? hp).1, hidentity⟩
  · exact ⟨a, ha, rfl⟩

theorem modifyNode (hp : g.pipeline? pipeline = some p) (hseat : p.Follows w seat)
    {f : Node → Node} (hf : ∀ n, p.node? name = some n → (f n).tag = n.tag) :
    CountsOn low g (g.setPipeline pipeline (p.modifyNode name f)) :=
  setPipeline hp (p.identity_modifyNode name f) rfl (fun _ => .refl low _)
    fun _ _ hx => Or.inl (hasNode_of_modifyNode hp hseat hf hx)

theorem removeNode (hp : g.pipeline? pipeline = some p) (hseat : p.Follows w seat) {n : Node}
    (hn : p.node? name = some n) :
    CountsOn low g (g.setPipeline pipeline (p.removeNode name)) :=
  setPipeline hp (p.identity_removeNode name) rfl (fun _ => .refl low _)
    fun _ _ hx => Or.inl (hasNode_of_removeNode hp hseat hn hx)

/-- A node is added under the next id of its kind, and the counter moves on. -/
theorem insertNode (hp : g.pipeline? pipeline = some p) (hseat : p.Follows w seat) {n : Node}
    {r : NodeRef} (hins : p.insertNode n = .ok (r, p'))
    (hid : Gives low (g.nextNode n.tag.2) n.tag.1.id (g'.nextNode n.tag.2))
    {conditionalIds tableIds : IdCounter}
    (hg' : g' = { g.setPipeline pipeline p' with conditionalIds, tableIds })
    (hnext : ∀ table, Leads low (g.nextNode table) (g'.nextNode table)) : CountsOn low g g' := by
  refine setPipeline hp (Pipeline.identity_insertNode hins) hg' hnext fun P x hx => ?_
  have hx' : (g.setPipeline pipeline p').HasNode P x := by
    rw [hg'] at hx
    exact hx
  rcases hasNode_of_insertNode hp hseat hins hx' with ⟨-, rfl⟩ | hx
  · exact Or.inr hid
  · exact Or.inl hx

/-- The arrays change: the counter moves on, and new arrays have new ids. -/
theorem of_arrays {arrays : ObjectMap RegisterArray}
    (hnext : Leads low g.arrays.nextId arrays.nextId)
    (harrays : ∀ a ∈ arrays.objects, (∃ b ∈ g.arrays.objects, b.identity = a.identity) ∨
      Gives low g.arrays.nextId a.identity.id arrays.nextId) :
    CountsOn low g { g with arrays } := by
  constructor
  · intro kind
    cases kind with
    | registerArray => exact hnext
    | _ => exact .refl low _
  · intro kind x hx
    cases kind with
    | registerArray =>
      obtain ⟨a, ha, rfl⟩ := List.mem_map.mp hx
      exact (harrays a ha).imp_left fun ⟨b, hb, heq⟩ => List.mem_map.mpr ⟨b, hb, by rw [heq]⟩
    | _ => exact Or.inl hx

/-- Arrays take the places of others, under identities that were there. -/
theorem replaceArrays {arrays : ObjectMap RegisterArray} (hids : arrays.ids = g.arrays.ids)
    (harrays : ∀ a ∈ arrays.objects, ∃ b ∈ g.arrays.objects, b.identity = a.identity) :
    CountsOn low g { g with arrays } := by
  refine of_arrays ?_ fun a ha => Or.inl (harrays a ha)
  show Leads low g.arrays.ids.next arrays.ids.next
  rw [hids]
  exact .refl low _

theorem setArray {a b : RegisterArray} (hb : b ∈ g.arrays.objects)
    (hidentity : a.identity = b.identity) : CountsOn low g (g.setArray name a) := by
  refine replaceArrays (ObjectMap.ids_alter ..) fun c hc => ?_
  rcases mem_of_mem_setArray hc with rfl | hc
  · exact ⟨b, hb, hidentity.symm⟩
  · exact ⟨c, hc, rfl⟩

end CountsOn

/-! ### Copies, commits and table operations -/

variable {donor : Program}

/-- One kind of objects gets one more, in the place of an object that has its id. -/
theorem CountsOn.of_one (kind : ObjectKind) (hlow : low → g.nextId kind < maxId)
    (hnext : g'.nextId kind = following (g.nextId kind))
    (hkind : ∀ x ∈ g'.holdings kind, x ∈ g.holdings kind ∨ x.2.id = g.nextId kind)
    (hsame : ∀ k, k ≠ kind → g'.holdings k = g.holdings k ∧ g'.nextId k = g.nextId k) :
    CountsOn low g g' where
  next k := by
    by_cases hk : k = kind
    · rw [hk, hnext]
      exact leads_following hlow
    · rw [(hsame k hk).2]
      exact .refl low _
  fresh k x hx := by
    by_cases hk : k = kind
    · subst hk
      refine (hkind x hx).imp_right fun hid => ?_
      rw [hid, hnext]
      exact .first low _
    · rw [(hsame k hk).1] at hx
      exact Or.inl hx

/-- The kinds of objects that copies are made of. -/
def copiedKinds : List ObjectKind := [.action, .calculation]

/-- An id stays in use when a calculation is added. -/
theorem mem_idsInUse_calculations {calculations : ObjectMap Calculation} {c : Calculation}
    (h : g.calculations.insert c = .ok calculations) {kind : ObjectKind} {id : Int}
    (hid : id ∈ g.idsInUse kind) : id ∈ idsInUse { g with calculations } kind := by
  cases kind with
  | calculation =>
    rw [idsInUse_calculation] at hid ⊢
    exact (ObjectMap.mem_ids_insert h id).mpr (Or.inr hid)
  | _ => exact hid

/-- An id stays in use when an action is copied: if an action leaves, the copy has its id. -/
theorem mem_idsInUse_insertCopy (a : Action) {kind : ObjectKind} {id : Int}
    (hid : id ∈ g.idsInUse kind) :
    id ∈ idsInUse { g with actions := g.actions.insertCopy a } kind := by
  cases kind with
  | action =>
    rw [idsInUse_action] at hid ⊢
    obtain ⟨b, hb, rfl⟩ := List.mem_map.mp hid
    by_cases hnext : idOf b = g.actions.ids.next
    · exact List.mem_map.mpr ⟨_, ActionTable.mem_insertCopy.mpr (Or.inl rfl), hnext.symm⟩
    · exact List.mem_map_of_mem (ActionTable.mem_insertCopy.mpr (Or.inr ⟨hb, hnext⟩))
  | _ => exact hid

/-- Copies count on, as long as none of them has the largest id.  A copy may take the place of an
object, but then it has its id. -/
theorem Copied.countsOn (h : Copied donor g g') :
    CountsOn (∀ kind ∈ copiedKinds, ∀ id ∈ g'.idsInUse kind, id < maxId) g g' := by
  induction h with
  | refl => exact .refl _ g
  | @calculation g₁ g₂ name _ hcopy ih =>
    obtain ⟨rfl, -⟩ | ⟨c, calculations, -, -, hins, rfl⟩ := adoptCalculation_ok hcopy
    · exact ih
    refine (ih.imp fun hmax kind hk id hid =>
      hmax kind hk id (mem_idsInUse_calculations hins hid)).trans ?_
    refine .of_one .calculation
      (fun hmax => hmax .calculation (by decide) _ ?_) ?_ ?_ ?_
    · rw [idsInUse_calculation]
      exact (ObjectMap.mem_ids_insert hins _).mpr (Or.inl rfl)
    · refine (ObjectMap.nextId_insert hins).trans ?_
      exact congrArg IdCounter.next (if_pos (Int.le_refl _))
    · intro x hx
      obtain ⟨d, hd, rfl⟩ := List.mem_map.mp hx
      obtain ⟨-, -, rfl⟩ := ObjectMap.insert_eq_ok.mp hins
      rcases ObjectMap.mem_place.mp hd with rfl | hd
      · exact Or.inr rfl
      · exact Or.inl (List.mem_map_of_mem hd)
    · intro k hk
      cases k <;> first | exact absurd rfl hk | exact ⟨rfl, rfl⟩
  | @action g₁ _ a ih =>
    refine (ih.imp fun hmax kind hk id hid =>
      hmax kind hk id (mem_idsInUse_insertCopy a hid)).trans ?_
    refine .of_one .action (fun hmax => hmax .action (by decide) _ ?_) rfl ?_ ?_
    · rw [idsInUse_action]
      exact List.mem_map.mpr ⟨_, ActionTable.mem_insertCopy.mpr (Or.inl rfl), rfl⟩
    · intro x hx
      obtain ⟨b, hb, rfl⟩ := List.mem_map.mp hx
      rcases ActionTable.mem_insertCopy.mp hb with rfl | ⟨hb, -⟩
      · exact Or.inr rfl
      · exact Or.inl (List.mem_map_of_mem hb)
    · intro k hk
      cases k <;> first | exact absurd rfl hk | exact ⟨rfl, rfl⟩

/-- Carrying out pending steps keeps every identity. -/
theorem countsOn_commitArrays (low : Prop) (g : Program) (s : Store) :
    CountsOn low g (g.commitArrays s).1 := by
  refine CountsOn.replaceArrays rfl fun a ha => ?_
  have ha' : a ∈ (g.commitArrays s).1.arrays.objects := ha
  rw [objects_commitArrays] at ha'
  obtain ⟨b, hb, rfl⟩ := List.mem_map.mp ha'
  exact ⟨b, hb, rfl⟩

/-- A table operation counts on. -/
theorem countsOn_entry (low : Prop) {log : Log} (h : g.Follows log) {pipeline table : String}
    {p : Pipeline} {t t' : Table} (hp : g.pipeline? pipeline = some p)
    (ht : p.table? table = some t) (hchange : t.EntryChange t') :
    CountsOn low g (g.setPipeline pipeline (p.modifyTable table fun _ => t')) := by
  obtain ⟨seat, hseat⟩ := h.get hp
  exact CountsOn.modifyNode hp hseat (hchange.tag_eq ht)

/-- A table operation brings no node. -/
theorem hasNode_of_entry {log : Log} (h : g.Follows log) {pipeline table : String}
    {p : Pipeline} {t t' : Table} (hp : g.pipeline? pipeline = some p)
    (ht : p.table? table = some t) (hchange : t.EntryChange t') {P : String}
    {x : Identity × Bool}
    (hx : (g.setPipeline pipeline (p.modifyTable table fun _ => t')).HasNode P x) :
    g.HasNode P x := by
  obtain ⟨seat, hseat⟩ := h.get hp
  exact hasNode_of_modifyNode hp hseat (hchange.tag_eq ht) hx

end Program

/-! ### Edits -/

open Program

namespace Node.TakesId

variable {g : Program} {n : Node} {conditionalIds tableIds : IdCounter}

theorem id (h : n.TakesId g conditionalIds tableIds) :
    n.identity.id = g.nextNode n.table?.isSome := by
  cases n with
  | conditional | table => exact h.1

/-- The counter of the kind of the node moves on, the other one stays. -/
theorem next (h : n.TakesId g conditionalIds tableIds) (table : Bool) :
    (if table then tableIds.next else conditionalIds.next) =
      if table = n.table?.isSome then following (g.nextNode table) else g.nextNode table := by
  cases n with
  | conditional c =>
    obtain ⟨-, rfl, rfl⟩ := h
    cases table <;> rfl
  | table t =>
    obtain ⟨-, rfl, rfl⟩ := h
    cases table <;> rfl

/-- A node is added under the next id of its kind. -/
theorem countsOn (h : n.TakesId g conditionalIds tableIds) {pipeline : String} {p p' : Pipeline}
    (hp : g.pipeline? pipeline = some p) {w : Wiring} {seat : Nat → Seat} (hseat : p.Follows w seat)
    {r : NodeRef} (hins : p.insertNode n = .ok (r, p')) :
    CountsOn (BelowMax { g.setPipeline pipeline p' with conditionalIds, tableIds }) g
      { g.setPipeline pipeline p' with conditionalIds, tableIds } := by
  obtain ⟨hmem, hname⟩ := ObjectMap.mem_of_get? hp
  have hnode : HasNode { g.setPipeline pipeline p' with conditionalIds, tableIds } pipeline
      n.tag := by
    refine ⟨p', ObjectMap.mem_modify.mpr ⟨p, hmem, (if_pos hname).symm⟩, ?_, n, ?_, rfl⟩
    · exact (congrArg Identity.name (Pipeline.identity_insertNode hins)).trans hname
    · exact (Pipeline.mem_nodes_insertNode_iff hseat.slots hins).mpr (Or.inl rfl)
  have hlow : BelowMax { g.setPipeline pipeline p' with conditionalIds, tableIds } →
      g.nextNode n.table?.isSome < maxId := by
    intro hmax
    rw [← h.id]
    have hid : ∀ table, n.table?.isSome = table → n.identity.id ∈
        (nodeHoldings { g.setPipeline pipeline p' with conditionalIds, tableIds } table).map
          fun x => x.2.id :=
      fun table htable => mem_nodeIds.mpr ⟨pipeline, n.identity, htable ▸ hnode, rfl⟩
    cases htable : n.table?.isSome with
    | false => exact hmax .conditional _ (hid _ htable)
    | true => exact hmax .table _ (hid _ htable)
  have hnext := h.next
  refine CountsOn.insertNode hp hseat hins ?_ rfl fun table => ?_
  · refine ⟨?_, ?_⟩
    · show Leads _ (g.nextNode n.table?.isSome) n.identity.id
      rw [h.id]
      exact .refl _ _
    · show Leads _ (following n.identity.id) (if n.table?.isSome then _ else _)
      rw [hnext, if_pos rfl, h.id]
      exact .refl _ _
  · show Leads _ (g.nextNode table) (if table then _ else _)
    rw [hnext]
    split
    case isTrue heq => exact leads_following (heq ▸ hlow)
    case isFalse => exact .refl _ _

end Node.TakesId

namespace Edit

variable {g g' donor : Program} {s s' : Store} {e : Edit}

/-- Every edit counts on, as long as no object has the largest id after it. -/
theorem countsOn_run {log : Log} (h : g.Follows log) (hrun : e.run donor (g, s) = .ok (g', s')) :
    CountsOn g'.BelowMax g g' := by
  by_cases hnodes : e.onNodes = true
  · obtain ⟨hchange, -⟩ := nodeChange_run hnodes hrun
    cases hchange with
    | @insert pipeline p p' n r conditionalIds tableIds as g₁ ids targets hp hadopt hins hids =>
      obtain ⟨seat, hseat⟩ := h.get hp
      have hcounts := (copied_adoptActions hadopt).countsOn
      obtain ⟨actions, calculations, rfl⟩ := adoptActions_ok hadopt
      -- the actions come first, and leave the pipelines as they are
      refine (hcounts.imp fun hmax kind hk => ?_).trans
        (hids.countsOn (g := { g with actions, calculations }) hp hseat hins)
      have hmax' := hmax kind
      rcases List.mem_pair.mp hk with rfl | rfl <;> exact hmax'
    | wire hp =>
      obtain ⟨seat, hseat⟩ := h.get hp
      exact CountsOn.modifyNode hp hseat fun n _ => n.tag_setEdge _ _
    | delete hp hn =>
      obtain ⟨seat, hseat⟩ := h.get hp
      exact CountsOn.removeNode hp hseat hn
  cases e with
  | insertArray name size bitwidth =>
    obtain ⟨arrays, hins, rfl, -⟩ := insertArray_ok hrun
    have hmem := fun a => ObjectMap.mem_insertNew hins (a := a)
    obtain ⟨-, rfl⟩ := ObjectMap.insertNew_eq_ok.mp hins
    refine CountsOn.of_arrays (leads_following fun hmax => hmax .registerArray _ ?_) fun a ha => ?_
    · rw [idsInUse_registerArray]
      exact List.mem_map.mpr ⟨_, (hmem _).mpr (Or.inl rfl), rfl⟩
    · rcases (hmem a).mp ha with rfl | ⟨ha, -⟩
      · exact Or.inr (.first _ _)
      · exact Or.inl ⟨a, ha, rfl⟩
  | resizeArray name size =>
    obtain ⟨hg, -⟩ := pair_eq_ok.mp hrun
    obtain ⟨a, ha, rfl⟩ := resizeArray_ok hg
    exact CountsOn.setArray (mem_of_array? ha) rfl
  | rewidenArray name bitwidth =>
    obtain ⟨hg, -⟩ := pair_eq_ok.mp hrun
    obtain ⟨a, ha, rfl⟩ := rewidenArray_ok hg
    exact CountsOn.setArray (mem_of_array? ha) rfl
  | deleteArray name =>
    obtain ⟨hg, -⟩ := pair_eq_ok.mp hrun
    obtain ⟨a, -, rfl⟩ := deleteArray_ok hg
    exact CountsOn.replaceArrays (ObjectMap.ids_remove ..) fun b hb =>
      ⟨b, ObjectMap.mem_of_mem_remove hb, rfl⟩
  | rehashArray r =>
    obtain ⟨target, reset, inputs, ht, hr, rfl, -⟩ := rehashArray_ok hrun
    refine CountsOn.replaceArrays
      ((ObjectMap.ids_alter ..).trans (ObjectMap.ids_alter ..)) fun a ha => ?_
    rcases mem_of_mem_setArray ha with rfl | ha
    · exact ⟨reset, mem_of_array? hr, rfl⟩
    · rcases mem_of_mem_setArray ha with rfl | ha
      · exact ⟨target, mem_of_array? ht, rfl⟩
      · exact ⟨a, ha, rfl⟩
  | _ => exact absurd rfl hnodes

/-- An edit adds one node at most, under the next id of its kind. -/
theorem hasNode_run {log : Log} (h : g.Follows log) (hrun : e.run donor (g, s) = .ok (g', s')) :
    (∀ P x, g'.HasNode P x → g.HasNode P x) ∨ ∃ P x, x.1.id = g.nextNode x.2 ∧
      ∀ Q y, g'.HasNode Q y → (Q = P ∧ y = x) ∨ g.HasNode Q y := by
  by_cases hnodes : e.onNodes = false
  · obtain ⟨hframe, -⟩ := frame_of_not_onNodes hnodes hrun
    left
    intro P x hx
    rw [hframe] at hx
    exact hx
  obtain ⟨hchange, -⟩ := nodeChange_run (Bool.not_eq_false _ ▸ hnodes) hrun
  cases hchange with
  | insert targets hp hadopt hins hids =>
    obtain ⟨seat, hseat⟩ := h.get hp
    obtain ⟨actions, calculations, rfl⟩ := adoptActions_ok hadopt
    exact Or.inr ⟨_, _, hids.id, fun Q y hy => hasNode_of_insertNode hp hseat hins hy⟩
  | wire hp =>
    obtain ⟨seat, hseat⟩ := h.get hp
    exact Or.inl fun P x hx => hasNode_of_modifyNode hp hseat (fun n _ => n.tag_setEdge _ _) hx
  | delete hp hn =>
    obtain ⟨seat, hseat⟩ := h.get hp
    exact Or.inl fun P x hx => hasNode_of_removeNode hp hseat hn hx

/-- As long as no object has the largest id, programs stay ordered. -/
theorem ordered_run (hg : g.Ordered) (hmax : g'.BelowMax) {log : Log} (h : g.Follows log)
    (hrun : e.run donor (g, s) = .ok (g', s')) : g'.Ordered where
  nodes := by
    rcases hasNode_run h hrun with hold | ⟨P, x, hid, hnew⟩
    · exact hg.nodes.mono hold
    · refine hg.nodes.insert hnew fun Q y hy hkind => ?_
      have hlt := hg.lt_nextNode hy
      rw [hid, ← hkind]
      omega
  below := (countsOn_run h hrun).below hmax hmax hg.below

theorem inRange_foldlM {log : Log} (h : g.Traced log) (hg : g.InRange) {l : List Edit}
    (hrun : l.foldlM (Edit.run donor) (g, s) = .ok (g', s')) : g'.InRange := by
  refine (foldlM_induction (P := fun x => x.1.InRange ∧ ∃ log, x.1.Traced log) ?_
    ⟨hg, log, h⟩ hrun).1
  rintro e - ⟨g₁, s₁⟩ ⟨g₂, s₂⟩ ⟨hg₁, log₁, hlog₁⟩ hstep
  exact ⟨(countsOn_run hlog₁.follows hstep).inRange hg₁, _, hlog₁.edit hstep⟩

end Edit

/-- The ids of a program that is reached are integers of 32 bits, and so are the next ones. -/
theorem Program.Reached.inRange {g : Program} (h : g.Reached) : g.InRange := by
  induction h with
  | start => exact InRange.start {}
  | load h => exact inRange_ofDocument h
  | plan h hdonor hl hrun ih =>
    obtain ⟨log, hlog⟩ := h.traced
    exact (countsOn_commitArrays True _ _).inRange (Edit.inRange_foldlM hlog ih hrun)
  | entry h hp ht hchange ih =>
    obtain ⟨log, hlog⟩ := h.traced
    exact (countsOn_entry True hlog.follows hp ht hchange).inRange ih

end LiveSwitch
