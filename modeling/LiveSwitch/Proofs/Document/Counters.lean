import LiveSwitch.Proofs.Document.Nodes
import LiveSwitch.Proofs.Program.Holdings

/-!
# The counters of a loaded program

A loader gives no ids but sees those of a document, one after the other, and each moves the counter
of its kind beyond it.  So every counter stands right above the ids of its kind, until the largest
id makes it come round, and all ids are integers of 32 bits, as a document holds no others.

## Main definitions

* `FirstFree` — the least number that is above some ids, and not below zero.
* `Program.Observes` — the counters have seen some more ids.
* `Program.CountsUp` — every counter stands right above the ids of its kind.

## Main results

* `Loader.Adds.observes` — what a record makes of the ids and the counters.
* `Program.countsUp_ofDocument`, `Program.inRange_ofDocument` — what holds of them in the end.
* `Program.strays_ofDocument` — no name of a loaded program is stray.
-/

namespace LiveSwitch

/-! ### The first free id -/

/-- The least number that is above some ids and not below zero. -/
structure FirstFree (n : Int) (ids : List Int) : Prop where
  nonneg : 0 ≤ n
  above : ∀ id ∈ ids, id < n
  least : n = 0 ∨ n - 1 ∈ ids

namespace FirstFree

variable {n n' : Int} {ids ids' : List Int} {c : IdCounter}

theorem le (h : FirstFree n ids) (h' : FirstFree n' ids') (hids : ∀ id ∈ ids, id ∈ ids') :
    n ≤ n' := by
  have hnonneg := h'.nonneg
  rcases h.least with hzero | hmem
  · omega
  · have := h'.above _ (hids _ hmem)
    omega

theorem start : FirstFree 0 [] := ⟨Int.le_refl 0, nofun, Or.inl rfl⟩

/-- A counter that has seen one more id stands right above all of them. -/
theorem observe (h : FirstFree c.next ids) {id : Int} (hid : id < maxId)
    (hids : ∀ i, i ∈ ids' ↔ i = id ∨ i ∈ ids) : FirstFree (c.observe id).next ids' := by
  have hnonneg := h.nonneg
  have hle := c.le_observe hid
  have hlt := c.lt_observe hid
  refine ⟨by omega, fun i hi => ?_, ?_⟩
  · rcases (hids i).mp hi with rfl | hi
    · exact hlt
    · have := h.above i hi
      omega
  · rw [hids]
    unfold IdCounter.observe
    split
    · right
      left
      show IdCounter.following id - 1 = id
      rw [IdCounter.following_of_lt hid]
      omega
    · rcases h.least with hzero | hmem
      · exact Or.inl hzero
      · exact Or.inr (Or.inr hmem)

theorem observeAll (h : FirstFree c.next ids) (new : List Int) (hnew : ∀ id ∈ new, id < maxId)
    (hids : ∀ i, i ∈ ids' ↔ i ∈ new ∨ i ∈ ids) :
    FirstFree (new.foldl IdCounter.observe c).next ids' := by
  induction new generalizing c ids with
  | nil =>
    have hsame : ∀ i, i ∈ ids' ↔ i ∈ ids := fun i => (hids i).trans (by simp)
    refine ⟨h.nonneg, fun i hi => h.above i ((hsame i).mp hi), ?_⟩
    rw [List.foldl_nil, hsame]
    exact h.least
  | cons id new ih =>
    rw [List.forall_mem_cons] at hnew
    have hobserve : FirstFree (c.observe id).next (id :: ids) :=
      h.observe hnew.1 fun i => List.mem_cons
    refine ih hobserve hnew.2 fun i => ?_
    rw [hids, List.mem_cons, List.mem_cons]
    tauto

end FirstFree

theorem IdCounter.valid_observeAll {c : IdCounter} (hc : Identity.validId c.next) {new : List Int}
    (hnew : ∀ id ∈ new, Identity.validId id) :
    Identity.validId (new.foldl IdCounter.observe c).next := by
  induction new generalizing c with
  | nil => exact hc
  | cons id new ih =>
    rw [List.forall_mem_cons] at hnew
    exact ih (valid_observe hc hnew.1) hnew.2

/-! ### What the counters see -/

namespace Program

variable {g g' : Program} {new : ObjectKind → List Int}

/-- The second program has some more ids in use, integers of 32 bits, and its counters have seen
them one after the other. -/
structure Observes (new : ObjectKind → List Int) (g g' : Program) : Prop where
  ids : ∀ kind i, i ∈ g'.idsInUse kind ↔ i ∈ new kind ∨ i ∈ g.idsInUse kind
  next : ∀ kind, g'.nextId kind = ((new kind).foldl IdCounter.observe ⟨g.nextId kind⟩).next
  valid : ∀ kind, ∀ i ∈ new kind, Identity.validId i

/-- As long as no id of a kind is the largest one, its counter stands right above them. -/
def CountsUp (g : Program) : Prop := ∀ kind, (∀ id ∈ g.idsInUse kind, id < maxId) →
  FirstFree (g.nextId kind) (g.idsInUse kind)

theorem CountsUp.observes (hg : g.CountsUp) (h : g.Observes new g') : g'.CountsUp := by
  intro kind hmax
  have hmax' : ∀ id, id ∈ new kind ∨ id ∈ g.idsInUse kind → id < maxId :=
    fun id hid => hmax id ((h.ids kind id).mpr hid)
  rw [h.next]
  exact (hg kind fun id hid => hmax' id (Or.inr hid)).observeAll _
    (fun id hid => hmax' id (Or.inl hid)) (h.ids kind)

/-- A program without objects is in range. -/
theorem InRange.start (layout : Layout) : InRange { layout } where
  ids kind := by cases kind <;> exact nofun
  next kind := by
    have hzero : Identity.validId 0 := by decide
    cases kind <;> exact hzero

theorem InRange.observes (hg : g.InRange) (h : g.Observes new g') : g'.InRange where
  ids kind id hid := by
    rcases (h.ids kind id).mp hid with hid | hid
    · exact h.valid kind id hid
    · exact hg.ids kind id hid
  next kind := by
    rw [h.next]
    exact IdCounter.valid_observeAll (hg.next kind) (h.valid kind)

/-- A document can hold the ids of a program whose ids are integers of 32 bits. -/
theorem InRange.validIds (h : g.InRange) : g.ValidIds where
  arrays a ha := h.ids .registerArray _ (idsInUse_registerArray g ▸ List.mem_map_of_mem ha)
  calculations c hc := h.ids .calculation _ (idsInUse_calculation g ▸ List.mem_map_of_mem hc)
  actions a ha := h.ids .action _ (idsInUse_action g ▸ List.mem_map_of_mem ha)
  pipelines p hp := h.ids .pipeline _ (idsInUse_pipeline g ▸ List.mem_map_of_mem hp)
  nodes p hp n hn := by
    have hmem : ∀ table, n.table?.isSome = table →
        n.identity.id ∈ (g.nodeHoldings table).map fun x => x.2.id := by
      rintro _ rfl
      exact mem_nodeIds.mpr ⟨p.name, n.identity, ⟨p, hp, rfl, n, hn, rfl⟩, rfl⟩
    cases htable : n.table?.isSome with
    | false => exact h.ids .conditional _ (hmem _ htable)
    | true => exact h.ids .table _ (hmem _ htable)

/-- One id is new. -/
def one (kind : ObjectKind) (id : Int) : ObjectKind → List Int :=
  fun k => if k = kind then [id] else []

/-- The objects of one kind are one more, whose id the counter has seen. -/
theorem Observes.of_one (kind : ObjectKind) {id : Int} (hvalid : Identity.validId id)
    (hids : ∀ i, i ∈ g'.idsInUse kind ↔ i = id ∨ i ∈ g.idsInUse kind)
    (hnext : g'.nextId kind = (IdCounter.observe ⟨g.nextId kind⟩ id).next)
    (hsame : ∀ k, k ≠ kind → g'.idsInUse k = g.idsInUse k ∧ g'.nextId k = g.nextId k) :
    g.Observes (one kind id) g' where
  ids k i := by
    unfold one
    split
    case isTrue heq => rw [heq, List.mem_singleton, hids]
    case isFalse hne => rw [(hsame k hne).1, or_iff_right List.not_mem_nil]
  next k := by
    unfold one
    split
    case isTrue heq => rw [heq]; exact hnext
    case isFalse hne => exact (hsame k hne).2
  valid k i hi := by
    unfold one at hi
    split at hi
    · exact List.mem_singleton.mp hi ▸ hvalid
    · cases hi

end Program

namespace Loader

variable {l l' : Loader} {p p' : Pipeline}

theorem counters_addTables {records : List TableRecord}
    (h : records.foldlM (fun (l, p) t => addTable l p t) (l, p) = .ok (l', p')) :
    l'.program.tableIds = (records.map (·.identity.id)).foldl .observe l.program.tableIds ∧
      l'.program.conditionalIds = l.program.conditionalIds := by
  induction records generalizing l p with
  | nil =>
    rw [foldlM_nil_eq_ok] at h
    cases h
    exact ⟨rfl, rfl⟩
  | cons r records ih =>
    obtain ⟨⟨l₁, p₁⟩, hstep, h⟩ := foldlM_cons_eq_ok.mp h
    obtain ⟨_, _, -, -, -, -, rfl⟩ := addTable_eq_ok.mp hstep
    exact ih h

theorem counters_addConditionals {records : List ConditionalRecord}
    (h : records.foldlM (fun (l, p) c => addConditional l p c) (l, p) = .ok (l', p')) :
    l'.program.conditionalIds =
        (records.map (·.identity.id)).foldl .observe l.program.conditionalIds ∧
      l'.program.tableIds = l.program.tableIds := by
  induction records generalizing l p with
  | nil =>
    rw [foldlM_nil_eq_ok] at h
    cases h
    exact ⟨rfl, rfl⟩
  | cons r records ih =>
    obtain ⟨⟨l₁, p₁⟩, hstep, h⟩ := foldlM_cons_eq_ok.mp h
    obtain ⟨_, _, -, -, -, rfl⟩ := addConditional_eq_ok.mp hstep
    exact ih h

theorem counters_addPipeline {r : PipelineRecord} (h : l.addPipeline r = .ok l') :
    l'.program.tableIds = (r.tables.map (·.identity.id)).foldl .observe l.program.tableIds ∧
      l'.program.conditionalIds =
        (r.conditionals.map (·.identity.id)).foldl .observe l.program.conditionalIds := by
  obtain ⟨l₁, _, l₂, _, _, _, _, _, h₁, h₂, -, -, -, -, rfl⟩ := addPipeline_eq_ok.mp h
  obtain ⟨htables₁, hconditionals₁⟩ := counters_addTables h₁
  obtain ⟨hconditionals₂, htables₂⟩ := counters_addConditionals h₂
  rw [hconditionals₁] at hconditionals₂
  exact ⟨htables₂.trans htables₁, hconditionals₂⟩

/-- The ids that the record of a pipeline brings. -/
def pipelineIds (r : PipelineRecord) : ObjectKind → List Int
  | .pipeline => [r.identity.id]
  | .node | .conditional | .flex => r.conditionals.map (·.identity.id)
  | .table => r.tables.map (·.identity.id)
  | .action | .registerArray | .calculation => []

theorem mem_tables_outline {r : PipelineRecord} {id : Int} :
    (∃ x ∈ r.outlines, x.1.2 = true ∧ x.1.1.id = id) ↔ id ∈ r.tables.map (·.identity.id) := by
  simp only [PipelineRecord.outlines, List.mem_append, List.mem_map, TableRecord.outline,
    ConditionalRecord.outline]
  constructor
  · rintro ⟨_, ⟨t, ht, rfl⟩ | ⟨c, -, rfl⟩, htable, rfl⟩
    · exact ⟨t, ht, rfl⟩
    · cases htable
  · rintro ⟨t, ht, rfl⟩
    exact ⟨_, Or.inl ⟨t, ht, rfl⟩, rfl, rfl⟩

theorem mem_conditionals_outline {r : PipelineRecord} {id : Int} :
    (∃ x ∈ r.outlines, x.1.2 = false ∧ x.1.1.id = id) ↔
      id ∈ r.conditionals.map (·.identity.id) := by
  simp only [PipelineRecord.outlines, List.mem_append, List.mem_map, TableRecord.outline,
    ConditionalRecord.outline]
  constructor
  · rintro ⟨_, ⟨t, -, rfl⟩ | ⟨c, hc, rfl⟩, htable, rfl⟩
    · cases htable
    · exact ⟨c, hc, rfl⟩
  · rintro ⟨c, hc, rfl⟩
    exact ⟨_, Or.inr ⟨c, hc, rfl⟩, rfl, rfl⟩

/-- The nodes of one kind are those of the record and those from before. -/
theorem mem_nodeIds_addPipeline {v : Json.Value} {r : PipelineRecord}
    (hv : PipelineRecord.decode v = some r) (h : l.addPipeline r = .ok l') (table : Bool)
    (id : Int) : id ∈ (l'.program.nodeHoldings table).map (fun x => x.2.id) ↔
      (∃ x ∈ r.outlines, x.1.2 = table ∧ x.1.1.id = id) ∨
        id ∈ (l.program.nodeHoldings table).map (fun x => x.2.id) := by
  obtain ⟨p, hins, -, hout, -⟩ := nodes_addPipeline hv h
  have hout' : p.nodes.map Node.outline = r.outlines := hout
  obtain ⟨-, -, hpipelines⟩ := ObjectMap.insert_eq_ok.mp hins
  have hmem : ∀ q, q ∈ l'.program.pipelines.objects ↔ q = p ∨ q ∈ l.program.pipelines.objects := by
    intro q
    rw [hpipelines]
    exact ObjectMap.mem_place
  rw [Program.mem_nodeIds, Program.mem_nodeIds]
  simp only [← hout', List.mem_map, exists_exists_and_eq_and]
  constructor
  · rintro ⟨P, i, ⟨q, hq, rfl, n, hn, htag⟩, rfl⟩
    rcases (hmem q).mp hq with rfl | hq
    · exact Or.inl ⟨n, hn, congrArg Prod.snd htag, congrArg (fun x => x.1.id) htag⟩
    · exact Or.inr ⟨q.name, i, ⟨q, hq, rfl, n, hn, htag⟩, rfl⟩
  · rintro (⟨n, hn, rfl, rfl⟩ | ⟨P, i, ⟨q, hq, hname, hn⟩, rfl⟩)
    · exact ⟨p.name, n.identity, ⟨p, (hmem p).mpr (Or.inl rfl), rfl, n, hn, rfl⟩, rfl⟩
    · exact ⟨P, i, ⟨q, (hmem q).mpr (Or.inr hq), hname, hn⟩, rfl⟩

/-- A pipeline that is added brings the nodes of its record. -/
theorem observes_addPipeline {v : Json.Value} {r : PipelineRecord}
    (hv : PipelineRecord.decode v = some r) (h : l.addPipeline r = .ok l') :
    l.program.Observes (pipelineIds r) l'.program := by
  obtain ⟨o, -, hidentity, -⟩ := PipelineRecord.decode_eq_some hv
  obtain ⟨htables, hconditionals⟩ := PipelineRecord.validIds_of_decode hv
  obtain ⟨htableIds, hconditionalIds⟩ := counters_addPipeline h
  obtain ⟨p, hins, hp, -, -⟩ := nodes_addPipeline hv h
  obtain ⟨-, hprogram⟩ := addPipeline_keep h
  constructor
  case ids =>
    intro kind i
    cases kind with
    | node | conditional | flex =>
      show i ∈ (l'.program.nodeHoldings false).map _ ↔ _
      rw [mem_nodeIds_addPipeline hv h, mem_conditionals_outline]
      rfl
    | table =>
      show i ∈ (l'.program.nodeHoldings true).map _ ↔ _
      rw [mem_nodeIds_addPipeline hv h, mem_tables_outline]
      rfl
    | pipeline =>
      rw [Program.idsInUse_pipeline, Program.idsInUse_pipeline, pipelineIds, ← hp,
        List.mem_singleton]
      exact ObjectMap.mem_ids_insert hins i
    | action | registerArray | calculation =>
      rw [hprogram]
      exact (or_iff_right List.not_mem_nil).symm
  case next =>
    intro kind
    cases kind with
    | node | conditional | flex => exact congrArg IdCounter.next hconditionalIds
    | table => exact congrArg IdCounter.next htableIds
    | pipeline =>
      rw [pipelineIds, ← hp]
      exact ObjectMap.nextId_insert hins
    | action | registerArray | calculation =>
      rw [hprogram]
      rfl
  case valid =>
    intro kind i hi
    cases kind with
    | node | conditional | flex =>
      obtain ⟨c, hc, rfl⟩ := List.mem_map.mp hi
      exact hconditionals c hc
    | table =>
      obtain ⟨t, ht, rfl⟩ := List.mem_map.mp hi
      exact htables t ht
    | pipeline => exact List.mem_singleton.mp hi ▸ (Identity.of_decode hidentity).1
    | action | registerArray | calculation => cases hi

/-- What a record makes of the ids and the counters. -/
theorem Adds.observes (h : l.Adds l') : ∃ new, l.program.Observes new l'.program := by
  cases h with
  | @array v r hv h =>
    obtain ⟨o, -, hidentity, -⟩ := ArrayRecord.decode_eq_some hv
    obtain ⟨arrays, -, -, hins, rfl⟩ := addArray_eq_ok.mp h
    refine ⟨_, .of_one .registerArray (Identity.of_decode hidentity).1 (fun i => ?_)
      (ObjectMap.nextId_insert hins) fun k hk => ?_⟩
    · rw [Program.idsInUse_registerArray, Program.idsInUse_registerArray]
      exact ObjectMap.mem_ids_insert hins i
    · cases k <;> first | exact absurd rfl hk | exact ⟨rfl, rfl⟩
  | @calculation v r hv h =>
    obtain ⟨o, -, hidentity, -⟩ := CalculationRecord.decode_eq_some hv
    obtain ⟨c, calculations, hc, hins, rfl⟩ := addCalculation_eq_ok.mp h
    obtain ⟨_, _, -, -, rfl⟩ := Calculation.ofRecord_eq_ok.mp hc
    refine ⟨_, .of_one .calculation (Identity.of_decode hidentity).1 (fun i => ?_)
      (ObjectMap.nextId_insert hins) fun k hk => ?_⟩
    · rw [Program.idsInUse_calculation, Program.idsInUse_calculation]
      exact ObjectMap.mem_ids_insert hins i
    · cases k <;> first | exact absurd rfl hk | exact ⟨rfl, rfl⟩
  | @action v r hv h =>
    obtain ⟨o, -, hidentity, -⟩ := ActionRecord.decode_eq_some hv
    obtain ⟨a, actions, ha, hins, rfl⟩ := addAction_eq_ok.mp h
    obtain ⟨_, -, rfl⟩ := Action.ofRecord_eq_ok.mp ha
    obtain ⟨-, rfl⟩ := ActionTable.insert_eq_ok.mp hins
    refine ⟨_, .of_one .action (Identity.of_decode hidentity).1 (fun i => ?_) rfl
      fun k hk => ?_⟩
    · rw [Program.idsInUse_action, Program.idsInUse_action]
      simp only [List.mem_map, ObjectMap.mem_place, or_and_right, exists_or, exists_eq_left]
      rw [eq_comm]
      rfl
    · cases k <;> first | exact absurd rfl hk | exact ⟨rfl, rfl⟩
  | pipeline hv h => exact ⟨_, observes_addPipeline hv h⟩

end Loader

namespace Program

variable {g : Program}

/-- What the addition of every record preserves holds of a loaded program. -/
theorem adds_induction {s s' : Store} {v : Json.Value} (h : ofDocument s v = .ok (g, s'))
    {P : Program → Prop} (hstart : ∀ layout, P { layout })
    (hadds : ∀ l l' : Loader, l.Adds l' → P l.program → P l'.program)
    (hextra : ∀ g extra, P g → P { g with extra }) : P g := by
  obtain ⟨root, layout, l, -, hl, rfl, -⟩ := adds_ofDocument h
  refine hextra _ _ ?_
  clear h
  induction hl with
  | refl => exact hstart layout
  | tail _ hstep ih => exact hadds _ _ hstep ih

/-- The objects of a document keep their ids, so no name of a loaded program is stray. -/
theorem strays_ofDocument {s s' : Store} {v : Json.Value} (h : ofDocument s v = .ok (g, s')) :
    g.arrays.strays = [] ∧ g.calculations.strays = [] := by
  refine adds_induction (P := fun g => g.arrays.strays = [] ∧ g.calculations.strays = []) h
    (fun _ => ⟨rfl, rfl⟩) (fun l l' hstep hl => ?_) fun _ _ hg => hg
  cases hstep with
  | array _ h =>
    obtain ⟨arrays, -, -, hins, rfl⟩ := Loader.addArray_eq_ok.mp h
    obtain ⟨-, -, rfl⟩ := ObjectMap.insert_eq_ok.mp hins
    exact hl
  | calculation _ h =>
    obtain ⟨c, calculations, -, hins, rfl⟩ := Loader.addCalculation_eq_ok.mp h
    obtain ⟨-, -, rfl⟩ := ObjectMap.insert_eq_ok.mp hins
    exact hl
  | action _ h =>
    obtain ⟨_, _, -, -, rfl⟩ := Loader.addAction_eq_ok.mp h
    exact hl
  | pipeline _ h =>
    obtain ⟨-, hprogram⟩ := Loader.addPipeline_keep h
    rw [hprogram]
    exact hl

/-- The counters of a loaded program stand right above its ids. -/
theorem countsUp_ofDocument {s s' : Store} {v : Json.Value} (h : ofDocument s v = .ok (g, s')) :
    g.CountsUp := by
  refine adds_induction h (fun _ kind _ => by cases kind <;> exact FirstFree.start)
    (fun l l' hstep hl => ?_) fun _ _ hg => hg
  obtain ⟨new, hnew⟩ := hstep.observes
  exact hl.observes hnew

/-- The ids of a loaded program are integers of 32 bits. -/
theorem inRange_ofDocument {s s' : Store} {v : Json.Value} (h : ofDocument s v = .ok (g, s')) :
    g.InRange := by
  refine adds_induction h .start (fun l l' hstep hl => ?_) fun _ _ hg => ⟨hg.ids, hg.next⟩
  obtain ⟨new, hnew⟩ := hstep.observes
  exact hl.observes hnew

end Program

end LiveSwitch
