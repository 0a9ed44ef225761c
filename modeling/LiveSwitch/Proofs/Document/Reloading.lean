import LiveSwitch.Proofs.Document.Rebuilding

/-!
# Documents of programs, loaded again

The document of a program lists its objects in the order of their ids.  Loading it goes
through them in that order, so that each object comes after those that were added before it, and
what has been loaded is written like what has been read so far.  Three things can go wrong: two
nodes of a kind may have one id, an input of a calculation may not be declared, and a conditional
may lack a condition without being a flex node.

## Main definitions

* `Program.ValidIds` — a document can hold all ids of a program.
* `Program.Reloadable` — none of the three things goes wrong.
* `Program.Rebuilt` — a loader has added the pipelines of a part of a document.

## Main results

* `Program.ofDocument_document` — the document of a sound and reloadable program can be loaded,
  and the document of the loaded program is the same.
* `Program.reloadable_of_ofDocument` — only such a document can be loaded.
-/

namespace LiveSwitch

open Json

/-! ### Records of sound objects -/

theorem RegisterArray.Sound.encodable {a : RegisterArray} (h : a.Sound) : a.toRecord.Encodable := by
  have hwidth : 0 < a.bitwidth ∧ a.bitwidth ≤ Register.maxBitwidth := by
    simpa [Register.validBitwidth] using h.bitwidth
  unfold Register.maxBitwidth at hwidth
  refine ⟨h.record, Register.lt_of_validSize h.size, ?_⟩
  show a.bitwidth < 0x100000000
  omega

theorem Condition.json_ne_null {c d : Condition} (h : decode c.json = .ok d) : c.json ≠ .null := by
  intro hnull
  rw [hnull] at h
  obtain ⟨he, -⟩ := decode_eq_ok.mp h
  simp [Expr.decode, Value.field?, Expr.decodeLeaf] at he

theorem Conditional.Sound.encodable {c : Conditional} (h : c.Sound) (p : Pipeline) :
    (c.toRecord p).Encodable := by
  refine ⟨h.record, fun v hv => ?_⟩
  obtain ⟨d, hd, rfl⟩ := Option.map_eq_some_iff.mp hv
  exact Condition.json_ne_null (h.condition d hd)

theorem Table.Sound.encodable {actions : ActionTable} {t : Table} (h : t.Sound actions)
    (p : Pipeline) : (t.toRecord p actions).Encodable := by
  refine ⟨h.record, fun r hr => ?_⟩
  obtain ⟨d, hd, rfl⟩ := Option.map_eq_some_iff.mp hr
  exact (h.default d hd).1

namespace Pipeline

variable {actions : ActionTable} {p : Pipeline}

theorem Sound.encodable (h : p.Sound actions) : (p.toRecord actions).Encodable := by
  refine ⟨h.record, fun r hr => ?_, fun r hr => ?_⟩
  · obtain ⟨t, ht, rfl⟩ := List.mem_map.mp hr
    exact Table.Sound.encodable (h.nodes _ (mem_tables.mp ht)) p
  · obtain ⟨c, hc, rfl⟩ := List.mem_map.mp hr
    exact Conditional.Sound.encodable (h.nodes _ (mem_conditionals.mp hc)) p

/-- The ids of a pipeline, its nodes and the actions are all that its record has. -/
theorem Sound.validIds (h : p.Sound actions) (hid : Identity.validId (idOf p))
    (hnodes : ∀ n ∈ p.nodes, Identity.validId n.identity.id)
    (hactions : ∀ a ∈ actions.actions, Identity.validId (idOf a)) :
    (p.toRecord actions).ValidIds := by
  have hactionIds : ∀ t ∈ p.tables, ∀ id ∈ t.actionIds, Identity.validId id := by
    intro t ht id hmem
    have hsome := Table.Sound.actions (h.nodes _ (mem_tables.mp ht)) id hmem
    obtain ⟨a, ha, rfl⟩ := ActionTable.isSome_get?_iff.mp hsome
    exact hactions a ha
  refine ⟨hid, fun r hr => ?_, fun r hr => ?_⟩
  · obtain ⟨t, ht, rfl⟩ := List.mem_map.mp hr
    refine ⟨hnodes _ (mem_tables.mp ht), hactionIds t ht, fun r hr => ?_⟩
    obtain ⟨d, hd, rfl⟩ := Option.map_eq_some_iff.mp hr
    rcases (Table.Sound.default (h.nodes _ (mem_tables.mp ht)) d hd).2 with hvalid | hmem
    · exact hvalid
    · exact hactionIds t ht _ hmem
  · obtain ⟨c, hc, rfl⟩ := List.mem_map.mp hr
    exact hnodes _ (mem_conditionals.mp hc)

/-- The record of a pipeline shows all its nodes. -/
theorem mem_outlines_toRecord (actions : ActionTable) {n : Node} (hn : n ∈ p.nodes) :
    ∃ x ∈ (p.toRecord actions).outlines, x.1 = n.tag := by
  cases n with
  | table t =>
    exact ⟨_, List.mem_append_left _ (List.mem_map_of_mem
      (List.mem_map_of_mem (mem_tables.mpr hn))), rfl⟩
  | conditional c =>
    exact ⟨_, List.mem_append_right _ (List.mem_map_of_mem
      (List.mem_map_of_mem (mem_conditionals.mpr hn))), rfl⟩

end Pipeline

/-! ### Calculations in another layout -/

namespace Calculation

theorem decodeInput_eq_ok {layout : Layout} {name : String} {v : Value} {f : String × Nat} :
    decodeInput layout name v = .ok f ↔ (v.field? "type").bind Value.string? = some "field" ∧
      fieldName ((v.field? "value").getD .null) = .ok f.1 ∧ layout.width? f.1 = some f.2 := by
  unfold decodeInput
  split
  case isFalse h => exact ⟨nofun, fun h' => absurd h'.1 h⟩
  case isTrue h =>
    rw [bind_eq_ok]
    constructor
    · rintro ⟨field, hfield, hwidth⟩
      split at hwidth
      case h_1 width hw =>
        cases hwidth
        exact ⟨h, hfield, hw⟩
      case h_2 => cases hwidth
    · rintro ⟨-, hfield, hwidth⟩
      refine ⟨f.1, hfield, ?_⟩
      rw [hwidth]
      rfl

/-- Inputs that can be read in one layout can be read in another one that declares them. -/
theorem mapM_decodeInput {layout layout' : Layout} {name : String} {l : List Value}
    {inputs : List (String × Nat)} (h : l.mapM (decodeInput layout name) = .ok inputs) :
    (∃ inputs', l.mapM (decodeInput layout' name) = .ok inputs') ↔
      ∀ f ∈ inputs, (layout'.width? f.1).isSome := by
  simp only [mapM_eq_ok] at h ⊢
  induction h with
  | nil => exact ⟨fun _ => nofun, fun _ => ⟨[], List.Forall₂.nil⟩⟩
  | @cons v f l inputs hv _ ih =>
    obtain ⟨htype, hfield, -⟩ := decodeInput_eq_ok.mp hv
    rw [List.forall_mem_cons, ← ih]
    constructor
    · rintro ⟨inputs', hall⟩
      obtain ⟨f', inputs', hv', hall', rfl⟩ := List.forall₂_cons_left_iff.mp hall
      obtain ⟨-, hfield', hwidth'⟩ := decodeInput_eq_ok.mp hv'
      rw [hfield, Except.ok.injEq] at hfield'
      rw [hfield', hwidth']
      exact ⟨rfl, inputs', hall'⟩
    · rintro ⟨hsome, inputs', hall⟩
      obtain ⟨width, hwidth⟩ := Option.isSome_iff_exists.mp hsome
      exact ⟨(f.1, width) :: inputs', List.Forall₂.cons
        (decodeInput_eq_ok.mpr ⟨htype, hfield, hwidth⟩) hall⟩

/-- A calculation is read back in every layout that declares its inputs, and no other. -/
theorem Sound.ofRecord_toRecord {c : Calculation} (h : c.Sound) (layout : Layout) :
    (∃ c', ofRecord layout c.toRecord = .ok c') ↔ ∀ f ∈ c.inputs, (layout.width? f.1).isSome := by
  obtain ⟨layout₀, hinputs⟩ := h.inputs
  rw [← mapM_decodeInput hinputs]
  constructor
  · rintro ⟨c', hc'⟩
    obtain ⟨_, inputs', -, hinputs', -⟩ := ofRecord_eq_ok.mp hc'
    exact ⟨inputs', hinputs'⟩
  · rintro ⟨inputs', hinputs'⟩
    exact ⟨_, ofRecord_eq_ok.mpr
      ⟨c.algorithm, inputs', HashAlgorithm.ofName?_name c.algorithm, hinputs', rfl⟩⟩

theorem toRecord_ofRecord {layout : Layout} {c c' : Calculation}
    (h : ofRecord layout c.toRecord = .ok c') : c'.toRecord = c.toRecord := by
  obtain ⟨algorithm, inputs, halgorithm, -, rfl⟩ := ofRecord_eq_ok.mp h
  replace halgorithm : HashAlgorithm.ofName? c.algorithm.name = some algorithm := halgorithm
  rw [HashAlgorithm.ofName?_name, Option.some.injEq] at halgorithm
  subst halgorithm
  rfl

end Calculation

/-! ### Sections -/

namespace Loader

variable {α R : Type} {root : Object} {key : String} {d : Decoder R} {e : R → Value} {f : α → R}
  {l : List α}

/-- A section is read when each of its records is. -/
theorem recordsOf_map (hroot : root.get? key = some (.array (l.map fun a => e (f a))))
    (h : ∀ a ∈ l, d (e (f a)) = some (f a)) : recordsOf root key d = .ok (l.map f) := by
  have hmap : (l.map fun a => e (f a)) = (l.map f).map e := by
    rw [List.map_map]
    rfl
  refine recordsOf_array hroot ?_
  rw [hmap]
  refine Decode.listOf_map fun r hr => ?_
  obtain ⟨a, ha, rfl⟩ := List.mem_map.mp hr
  exact h a ha

theorem exists_of_recordsOf_map {records : List R}
    (hroot : root.get? key = some (.array (l.map fun a => e (f a))))
    (h : recordsOf root key d = .ok records) : ∀ a ∈ l, ∃ r, d (e (f a)) = some r := by
  intro a ha
  rw [recordsOf, hroot] at h
  dsimp only at h
  split at h
  case h_1 records' heq => exact Decode.isSome_of_listOf_map heq ha
  case h_2 => cases h

end Loader

namespace Program

variable {g : Program}

/-- The fields of the document of a program. -/
def root (g : Program) : Object := g.extra.insertAll g.sections

theorem keys_sections (g : Program) : g.sections.map Prod.fst = sectionKeys := rfl

theorem get?_root {key : String} {v : Value} (h : (key, v) ∈ g.sections) :
    g.root.get? key = some v := by
  have hkeys : (g.sections.map Prod.fst).Nodup := by
    rw [keys_sections]
    decide
  refine Object.get?_insertAll_of_mem h fun v' h' => ?_
  exact congrArg Prod.snd (List.inj_on_of_nodup_map hkeys h' h rfl)

theorem get?_arrays (g : Program) : g.root.get? "register_arrays" =
    some (.array (g.arrays.objects.map fun a => a.toRecord.encode)) :=
  get?_root (by simp [sections])

theorem get?_calculations (g : Program) : g.root.get? "calculations" =
    some (.array (g.calculations.objects.map fun c => c.toRecord.encode)) :=
  get?_root (by simp [sections])

theorem get?_actions (g : Program) : g.root.get? "actions" =
    some (.array (g.actions.actions.map fun a => a.toRecord.encode)) :=
  get?_root (by simp [sections])

theorem get?_pipelines (g : Program) : g.root.get? "pipelines" =
    some (.array (g.pipelines.objects.map fun p => (p.toRecord g.actions).encode)) :=
  get?_root (by simp [sections])

theorem get?_root_of_not_mem {key : String} (h : key ∉ sectionKeys) :
    g.root.get? key = g.extra.get? key := by
  refine Object.get?_insertAll_of_not_mem fun f hf heq => h ?_
  rw [← heq, ← keys_sections g]
  exact List.mem_map_of_mem hf

theorem without_root (h : Object.Free sectionKeys g.extra) :
    g.root.without sectionKeys = g.extra := by
  refine Object.without_insertAll (fun f hf => ?_) h
  rw [← keys_sections g]
  exact List.mem_map_of_mem hf

/-- A document can hold the ids of all objects. -/
structure ValidIds (g : Program) : Prop where
  arrays : ∀ a ∈ g.arrays.objects, Identity.validId (idOf a)
  calculations : ∀ c ∈ g.calculations.objects, Identity.validId (idOf c)
  actions : ∀ a ∈ g.actions.actions, Identity.validId (idOf a)
  pipelines : ∀ p ∈ g.pipelines.objects, Identity.validId (idOf p)
  nodes : ∀ p ∈ g.pipelines.objects, ∀ n ∈ p.nodes, Identity.validId n.identity.id

/-- The four sections of a document are read as the records they were written from. -/
structure Readable (g : Program) : Prop where
  arrays : Loader.recordsOf g.root "register_arrays" ArrayRecord.decode =
    .ok (g.arrays.objects.map RegisterArray.toRecord)
  calculations : Loader.recordsOf g.root "calculations" CalculationRecord.decode =
    .ok (g.calculations.objects.map Calculation.toRecord)
  actions : Loader.recordsOf g.root "actions" ActionRecord.decode =
    .ok (g.actions.actions.map Action.toRecord)
  pipelines : Loader.recordsOf g.root "pipelines" PipelineRecord.decode =
    .ok (g.pipelines.objects.map (Pipeline.toRecord g.actions))

theorem Sound.readable (h : g.Sound) (hids : g.ValidIds) : g.Readable where
  arrays := by
    refine Loader.recordsOf_map (get?_arrays g) fun a ha => ?_
    exact ArrayRecord.decode_encode (h.arrays a ha).encodable (hids.arrays a ha)
  calculations := by
    refine Loader.recordsOf_map (get?_calculations g) fun c hc => ?_
    exact CalculationRecord.decode_encode (h.calculations c hc).record (hids.calculations c hc)
  actions := by
    refine Loader.recordsOf_map (get?_actions g) fun a ha => ?_
    exact ActionRecord.decode_encode (h.actions a ha).record (hids.actions a ha)
  pipelines := by
    refine Loader.recordsOf_map (get?_pipelines g) fun p hp => ?_
    have hp' := h.pipelines p hp
    exact PipelineRecord.decode_encode hp'.encodable
      (hp'.validIds (hids.pipelines p hp) (hids.nodes p hp) hids.actions)

/-- Sections that can be read have valid ids. -/
theorem validIds_of_recordsOf {arrays : List ArrayRecord} {calculations : List CalculationRecord}
    {actions : List ActionRecord} {pipelines : List PipelineRecord}
    (ha : Loader.recordsOf g.root "register_arrays" ArrayRecord.decode = .ok arrays)
    (hc : Loader.recordsOf g.root "calculations" CalculationRecord.decode = .ok calculations)
    (hact : Loader.recordsOf g.root "actions" ActionRecord.decode = .ok actions)
    (hp : Loader.recordsOf g.root "pipelines" PipelineRecord.decode = .ok pipelines) :
    g.ValidIds where
  arrays a hmem := by
    obtain ⟨r, hr⟩ := Loader.exists_of_recordsOf_map (get?_arrays g) ha a hmem
    exact ArrayRecord.validId_of_decode_encode hr
  calculations c hmem := by
    obtain ⟨r, hr⟩ := Loader.exists_of_recordsOf_map (get?_calculations g) hc c hmem
    exact CalculationRecord.validId_of_decode_encode hr
  actions a hmem := by
    obtain ⟨r, hr⟩ := Loader.exists_of_recordsOf_map (get?_actions g) hact a hmem
    exact ActionRecord.validId_of_decode_encode hr
  pipelines p hmem := by
    obtain ⟨r, hr⟩ := Loader.exists_of_recordsOf_map (get?_pipelines g) hp p hmem
    exact (PipelineRecord.validIds_of_decode_encode hr).1
  nodes p hmem n hn := by
    obtain ⟨r, hr⟩ := Loader.exists_of_recordsOf_map (get?_pipelines g) hp p hmem
    obtain ⟨-, htables, hconditionals⟩ := PipelineRecord.validIds_of_decode_encode hr
    cases n with
    | table t => exact htables _ (List.mem_map_of_mem (Pipeline.mem_tables.mpr hn))
    | conditional c =>
      exact hconditionals _ (List.mem_map_of_mem (Pipeline.mem_conditionals.mpr hn))

end Program

/-! ### Objects in order -/

namespace Loader

/-- Objects that were added so far come before the next one. -/
theorem before_next {α : Type} [Named α] {m : ObjectMap α} {done rest : List α} {a : α}
    (h : ((done ++ a :: rest).map Named.identity).Pairwise Identity.Before)
    (hm : m.objects.map Named.identity = done.map Named.identity) :
    ∀ b ∈ m.objects, (Named.identity b).Before (Named.identity a) := by
  intro b hb
  rw [List.map_append, List.map_cons, List.pairwise_append] at h
  refine h.2.2 _ ?_ _ List.mem_cons_self
  rw [← hm]
  exact List.mem_map_of_mem hb

/-- Register arrays are added as zeros, under the records they had. -/
theorem addArrays_toRecord {l : Loader} {arrays : List RegisterArray}
    (hl : l.program.arrays = .empty) (harrays : ∀ a ∈ arrays, a.Sound)
    (hbefore : (arrays.map Named.identity).Pairwise Identity.Before) :
    ∃ l', (arrays.map RegisterArray.toRecord).foldlM addArray l = .ok l' ∧
      l'.program.arrays.objects.map RegisterArray.toRecord = arrays.map RegisterArray.toRecord ∧
      l' = { l with
        program := { l.program with arrays := l'.program.arrays }
        store := l'.store } := by
  rw [List.foldlM_map]
  suffices h : ∃ l', arrays.foldlM (fun l a => l.addArray a.toRecord) l = .ok l' ∧
      (l'.program.arrays.objects.map RegisterArray.toRecord = arrays.map RegisterArray.toRecord ∧
        l'.program.arrays.strays = []) ∧
      l' = { l with
        program := { l.program with arrays := l'.program.arrays }
        store := l'.store } by
    obtain ⟨l', hadd, ⟨hrecords, -⟩, hframe⟩ := h
    exact ⟨l', hadd, hrecords, hframe⟩
  refine foldlM_progress (fun done (l' : Loader) =>
    (l'.program.arrays.objects.map RegisterArray.toRecord = done.map RegisterArray.toRecord ∧
      l'.program.arrays.strays = []) ∧
      l' = { l with
        program := { l.program with arrays := l'.program.arrays }
        store := l'.store }) ⟨by rw [hl]; exact ⟨rfl, rfl⟩, rfl⟩ ?_
  rintro done a rest l₁ rfl ⟨⟨hrecords, hstrays⟩, hframe⟩
  have ha := harrays a (List.mem_append_right _ List.mem_cons_self)
  have hidentities : l₁.program.arrays.objects.map Named.identity = done.map Named.identity := by
    have hmap := congrArg (List.map ArrayRecord.identity) hrecords
    rw [List.map_map, List.map_map] at hmap
    exact hmap
  let a' := (RegisterArray.zeros a.identity a.size a.bitwidth a.extra l₁.store).1
  have hlast : ∀ b ∈ l₁.program.arrays.objects, (Named.identity b).Before (Named.identity a') :=
    before_next (a := a) hbefore hidentities
  have hins := ObjectMap.insert_eq_append hstrays hlast
  refine ⟨_, addArray_eq_ok.mpr ⟨_, ha.size, ha.bitwidth, hins, rfl⟩, ⟨?_, hstrays⟩, ?_⟩
  · have hrecord : a'.toRecord = a.toRecord := by
      have hsize : a'.size = a.size := Storage.size_cells_zeros _ _
      unfold RegisterArray.toRecord
      rw [hsize]
      rfl
    show (l₁.program.arrays.objects ++ [a']).map RegisterArray.toRecord = _
    rw [List.map_append, List.map_append, hrecords, List.map_singleton, List.map_singleton, hrecord]
  · exact congrArg (fun l : Loader => { l with
      program := { l.program with
        arrays := { objects := l₁.program.arrays.objects ++ [a']
                    strays := l₁.program.arrays.strays
                    ids := l₁.program.arrays.ids.observe (idOf a') } }
      store := l₁.store.add (.zeros a.size a.bitwidth) }) hframe

/-- Calculations are added with the records they had, when their inputs are declared. -/
theorem addCalculations_toRecord {l : Loader} {calculations : List Calculation}
    (hl : l.program.calculations = .empty) (hcalculations : ∀ c ∈ calculations, c.Sound)
    (hinputs : ∀ c ∈ calculations, ∀ f ∈ c.inputs, (l.program.layout.width? f.1).isSome)
    (hbefore : (calculations.map Named.identity).Pairwise Identity.Before) :
    ∃ l', (calculations.map Calculation.toRecord).foldlM addCalculation l = .ok l' ∧
      l'.program.calculations.objects.map Calculation.toRecord =
        calculations.map Calculation.toRecord ∧
      l' = { l with program := { l.program with calculations := l'.program.calculations } } := by
  rw [List.foldlM_map]
  suffices h : ∃ l', calculations.foldlM (fun l c => l.addCalculation c.toRecord) l = .ok l' ∧
      (l'.program.calculations.objects.map Calculation.toRecord =
          calculations.map Calculation.toRecord ∧ l'.program.calculations.strays = []) ∧
      l' = { l with program := { l.program with calculations := l'.program.calculations } } by
    obtain ⟨l', hadd, ⟨hrecords, -⟩, hframe⟩ := h
    exact ⟨l', hadd, hrecords, hframe⟩
  refine foldlM_progress (fun done (l' : Loader) =>
    (l'.program.calculations.objects.map Calculation.toRecord = done.map Calculation.toRecord ∧
      l'.program.calculations.strays = []) ∧
      l' = { l with program := { l.program with calculations := l'.program.calculations } })
    ⟨by rw [hl]; exact ⟨rfl, rfl⟩, rfl⟩ ?_
  rintro done c rest l₁ rfl ⟨⟨hrecords, hstrays⟩, hframe⟩
  have hc : c ∈ done ++ c :: rest := List.mem_append_right _ List.mem_cons_self
  have hidentities :
      l₁.program.calculations.objects.map Named.identity = done.map Named.identity := by
    have hmap := congrArg (List.map CalculationRecord.identity) hrecords
    rw [List.map_map, List.map_map] at hmap
    exact hmap
  have hlayout : l₁.program.layout = l.program.layout := by rw [hframe]
  obtain ⟨c', hc'⟩ := ((hcalculations c hc).ofRecord_toRecord l₁.program.layout).mpr
    (by rw [hlayout]; exact hinputs c hc)
  have hrecord := Calculation.toRecord_ofRecord hc'
  have hidentity : Named.identity c' = Named.identity c :=
    congrArg CalculationRecord.identity hrecord
  have hins := ObjectMap.insert_eq_append hstrays (a := c')
    (by rw [hidentity]; exact before_next hbefore hidentities)
  refine ⟨_, addCalculation_eq_ok.mpr ⟨c', _, hc', hins, rfl⟩, ⟨?_, hstrays⟩, ?_⟩
  · show (l₁.program.calculations.objects ++ [c']).map Calculation.toRecord = _
    rw [List.map_append, List.map_append, hrecords, List.map_singleton, List.map_singleton, hrecord]
  · exact congrArg (fun l : Loader => { l with program := { l.program with
      calculations := { objects := l₁.program.calculations.objects ++ [c']
                        strays := l₁.program.calculations.strays
                        ids := l₁.program.calculations.ids.observe (idOf c') } } }) hframe

/-- Actions are added as they were. -/
theorem addActions_toRecord {l : Loader} {actions : List Action}
    (hl : l.program.actions.actions = []) (hactions : ∀ a ∈ actions, a.Sound)
    (hids : (actions.map idOf).Pairwise (· < ·)) :
    ∃ l', (actions.map Action.toRecord).foldlM addAction l = .ok l' ∧
      l'.program.actions.actions = actions ∧
      l' = { l with program := { l.program with actions := l'.program.actions } } := by
  rw [List.foldlM_map]
  refine foldlM_progress (fun done (l' : Loader) => l'.program.actions.actions = done ∧
    l' = { l with program := { l.program with actions := l'.program.actions } }) ⟨hl, rfl⟩ ?_
  rintro done a rest l₁ rfl ⟨hdone, hframe⟩
  have ha := hactions a (List.mem_append_right _ List.mem_cons_self)
  have hlast : ∀ b ∈ l₁.program.actions.actions, idOf b < idOf a := by
    intro b hb
    rw [hdone] at hb
    rw [List.map_append, List.map_cons, List.pairwise_append] at hids
    exact hids.2.2 _ (List.mem_map_of_mem hb) _ List.mem_cons_self
  have hins : l₁.program.actions.insert a =
      .ok { actions := done ++ [a], ids := l₁.program.actions.ids.observe a.identity.id } := by
    refine ActionTable.insert_eq_ok.mpr ⟨List.find?_eq_none.mpr fun b hb heq => ?_, ?_⟩
    · exact Int.ne_of_lt (hlast b hb) (beq_iff_eq.mp heq)
    · rw [ObjectMap.place_eq_append hlast, hdone]
  have hrecord : Action.ofRecord a.toRecord = .ok a :=
    Action.ofRecord_eq_ok.mpr ⟨a.primitives, ha.primitives, rfl⟩
  refine ⟨_, addAction_eq_ok.mpr ⟨a, _, hrecord, hins, rfl⟩, rfl, ?_⟩
  exact congrArg (fun l : Loader => { l with program := { l.program with
    actions := { actions := done ++ [a]
                 ids := l₁.program.actions.ids.observe a.identity.id } } }) hframe

end Loader

/-! ### Pipelines in order -/

/-- Tables and conditionals of a pipeline have names of their own. -/
theorem Pipeline.Indexed.nodup_names {p : Pipeline} (h : p.Indexed) :
    (p.tables.map nameOf).Nodup ∧ (p.conditionals.map nameOf).Nodup := by
  have hnames := h.nodup_map_name
  rw [← ((Pipeline.perm_nodes p).map Node.name).nodup_iff, List.map_append, List.map_map,
    List.map_map] at hnames
  exact ⟨hnames.of_append_left, hnames.of_append_right⟩

namespace Program

variable {g : Program} {p q : Pipeline}

/-- Nodes of one kind with one id are in one pipeline and have one name. -/
theorem name_eq_of_id_eq (hids : UniqueIds g.HasNode) (hp : p ∈ g.pipelines.objects)
    (hq : q ∈ g.pipelines.objects) {n m : Node} (hn : n ∈ p.nodes) (hm : m ∈ q.nodes)
    (hkind : n.table?.isSome = m.table?.isSome) (hid : n.identity.id = m.identity.id) :
    p.name = q.name ∧ n.name = m.name :=
  hids.unique ⟨p, hp, rfl, n, hn, rfl⟩ ⟨q, hq, rfl, m, hm, rfl⟩ hkind hid

theorem Sound.nodup_names (h : g.Sound) (hp : p ∈ g.pipelines.objects) :
    (p.nodes.map Node.name).Nodup := by
  obtain ⟨log, hlog⟩ := h.graphs
  obtain ⟨seat, hseat⟩ := hlog p hp
  exact hseat.indexed.nodup_map_name

theorem nodup_ids {α : Type} [Named α] {l : List α} (hnames : (l.map nameOf).Nodup)
    (h : ∀ a ∈ l, ∀ b ∈ l, idOf a = idOf b → nameOf a = nameOf b) : (l.map idOf).Nodup := by
  rw [List.Nodup, List.pairwise_map] at *
  exact hnames.imp_of_mem fun ha hb hne heq => hne (h _ ha _ hb heq)

theorem Sound.nodup_nodeIds (h : g.Sound) (hids : UniqueIds g.HasNode)
    (hp : p ∈ g.pipelines.objects) :
    (p.tables.map idOf).Nodup ∧ (p.conditionals.map idOf).Nodup := by
  obtain ⟨log, hlog⟩ := h.graphs
  obtain ⟨seat, hseat⟩ := hlog p hp
  obtain ⟨htables, hconditionals⟩ := hseat.indexed.nodup_names
  refine ⟨nodup_ids htables fun t ht u hu hid => ?_,
    nodup_ids hconditionals fun c hc d hd hid => ?_⟩
  · exact (name_eq_of_id_eq hids hp hp (Pipeline.mem_tables.mp ht) (Pipeline.mem_tables.mp hu)
      rfl hid).2
  · exact (name_eq_of_id_eq hids hp hp (Pipeline.mem_conditionals.mp hc)
      (Pipeline.mem_conditionals.mp hd) rfl hid).2

theorem Sound.pairwise_tables (h : g.Sound) (hids : UniqueIds g.HasNode)
    (hp : p ∈ g.pipelines.objects) : (p.tables.map idOf).Pairwise (· < ·) :=
  Pipeline.pairwise_ids (h.nodup_nodeIds hids hp).1

theorem Sound.pairwise_conditionals (h : g.Sound) (hids : UniqueIds g.HasNode)
    (hp : p ∈ g.pipelines.objects) : (p.conditionals.map idOf).Pairwise (· < ·) :=
  Pipeline.pairwise_ids (h.nodup_nodeIds hids hp).2

/-- A loader has added pipelines with the records of some pipelines of a program to those it had,
which were none, and nothing else.  The ids of nodes in use are theirs. -/
structure Rebuilt (g : Program) (l : Loader) (done : List Pipeline) (l' : Loader) : Prop where
  records : l'.program.pipelines.objects.map (Pipeline.toRecord g.actions) =
    done.map (Pipeline.toRecord g.actions)
  strays : l'.program.pipelines.strays = []
  frame : l'.program = { l.program with
    pipelines := l'.program.pipelines
    tableIds := l'.program.tableIds
    conditionalIds := l'.program.conditionalIds }
  tableIds : ∀ id ∈ l'.tableIds, ∃ p ∈ done, ∃ t ∈ p.tables, idOf t = id
  conditionalIds : ∀ id ∈ l'.conditionalIds, ∃ p ∈ done, ∃ c ∈ p.conditionals, idOf c = id

variable {l l₁ : Loader} {done rest : List Pipeline}

theorem Rebuilt.start (hl : l.program.pipelines = .empty) (htables : l.tableIds = [])
    (hconditionals : l.conditionalIds = []) : g.Rebuilt l [] l where
  records := by
    rw [hl]
    rfl
  strays := by
    rw [hl]
    rfl
  frame := rfl
  tableIds := by
    rw [htables]
    exact nofun
  conditionalIds := by
    rw [hconditionals]
    exact nofun

theorem Sound.mem_of_split (h : g.Sound) (hsplit : g.pipelines.objects = done ++ q :: rest) :
    q ∈ g.pipelines.objects ∧ ∀ p ∈ done, p ∈ g.pipelines.objects ∧ p.name ≠ q.name := by
  have hbefore := h.pipelinesConsistent.before
  rw [hsplit, List.map_append, List.map_cons, List.pairwise_append] at hbefore
  rw [hsplit]
  refine ⟨List.mem_append_right _ List.mem_cons_self, fun p hp => ?_⟩
  exact ⟨List.mem_append_left _ hp,
    (hbefore.2.2 _ (List.mem_map_of_mem hp) _ List.mem_cons_self).2⟩

/-- The nodes of the next pipeline have ids that are not in use. -/
theorem Rebuilt.fresh (hl : g.Rebuilt l done l₁) (h : g.Sound) (hids : UniqueIds g.HasNode)
    (hsplit : g.pipelines.objects = done ++ q :: rest) :
    (∀ t ∈ q.tables, idOf t ∉ l₁.tableIds) ∧ ∀ c ∈ q.conditionals, idOf c ∉ l₁.conditionalIds := by
  obtain ⟨hq, hdone⟩ := h.mem_of_split hsplit
  refine ⟨fun t ht hmem => ?_, fun c hc hmem => ?_⟩
  · obtain ⟨p, hp, u, hu, hid⟩ := hl.tableIds _ hmem
    obtain ⟨hp', hne⟩ := hdone p hp
    exact hne (name_eq_of_id_eq hids hp' hq (Pipeline.mem_tables.mp hu) (Pipeline.mem_tables.mp ht)
      rfl hid).1
  · obtain ⟨p, hp, d, hd, hid⟩ := hl.conditionalIds _ hmem
    obtain ⟨hp', hne⟩ := hdone p hp
    exact hne (name_eq_of_id_eq hids hp' hq (Pipeline.mem_conditionals.mp hd)
      (Pipeline.mem_conditionals.mp hc) rfl hid).1

theorem Rebuilt.before (hl : g.Rebuilt l done l₁) (h : g.Sound)
    (hsplit : g.pipelines.objects = done ++ q :: rest) :
    ∀ p ∈ l₁.program.pipelines.objects, p.identity.Before q.identity := by
  have hmap := congrArg (List.map PipelineRecord.identity) hl.records
  rw [List.map_map, List.map_map] at hmap
  have hall : ((done ++ q :: rest).map Named.identity).Pairwise Identity.Before :=
    hsplit ▸ h.pipelinesConsistent.before
  exact Loader.before_next hall hmap

/-- The next pipeline is rebuilt. -/
theorem Rebuilt.next (hl : g.Rebuilt l done l₁) (h : g.Sound) (hids : UniqueIds g.HasNode)
    (hsplit : g.pipelines.objects = done ++ q :: rest)
    (hflex : ∀ c ∈ q.conditionals, c.condition? = none → c.flex = true)
    (hactions : l.program.actions.actions = g.actions.actions) :
    ∃ l₂, l₁.addPipeline (q.toRecord g.actions) = .ok l₂ ∧ g.Rebuilt l (done ++ [q]) l₂ := by
  have hq := (h.mem_of_split hsplit).1
  have hsame : l₁.program.actions.actions = g.actions.actions := by
    rw [hl.frame]
    exact hactions
  have hsound : q.Sound l₁.program.actions := by
    refine (h.pipelines q hq).mono fun id hid => ?_
    rw [ActionTable.get?_congr hsame]
    exact hid
  obtain ⟨hfresh, hfresh'⟩ := hl.fresh h hids hsplit
  obtain ⟨htables, hconditionals⟩ := h.nodup_nodeIds hids hq
  obtain ⟨l₂, q', hadd, hrecord, hframe, hobjects, hstrays, hnew, hnew'⟩ :=
    Loader.addPipeline_toRecord hsound (h.nodup_names hq) hflex htables hconditionals hfresh hfresh'
      hl.strays (hl.before h hsplit)
  rw [Pipeline.toRecord_congr_actions hsame] at hadd
  rw [Pipeline.toRecord_congr_actions hsame, Pipeline.toRecord_congr_actions hsame] at hrecord
  refine ⟨l₂, hadd, ?_, hstrays, ?_, fun id hid => ?_, fun id hid => ?_⟩
  · rw [hobjects, List.map_append, List.map_append, hl.records, List.map_singleton,
      List.map_singleton, hrecord]
  · exact hframe.trans (congrArg (fun g : Program => { g with
      pipelines := l₂.program.pipelines
      tableIds := l₂.program.tableIds
      conditionalIds := l₂.program.conditionalIds }) hl.frame)
  · rcases hnew id hid with hold | hmem
    · obtain ⟨p, hp, ht⟩ := hl.tableIds id hold
      exact ⟨p, List.mem_append_left _ hp, ht⟩
    · exact ⟨q, List.mem_append_right _ List.mem_cons_self, List.mem_map.mp hmem⟩
  · rcases hnew' id hid with hold | hmem
    · obtain ⟨p, hp, hc⟩ := hl.conditionalIds id hold
      exact ⟨p, List.mem_append_left _ hp, hc⟩
    · exact ⟨q, List.mem_append_right _ List.mem_cons_self, List.mem_map.mp hmem⟩

/-- Pipelines are rebuilt one after the other. -/
theorem Sound.addPipelines (h : g.Sound) (hids : UniqueIds g.HasNode)
    (hflex : ∀ p ∈ g.pipelines.objects, ∀ c ∈ p.conditionals, c.condition? = none → c.flex = true)
    (hl : l.program.pipelines = .empty)
    (hactions : l.program.actions.actions = g.actions.actions)
    (htables : l.tableIds = []) (hconditionals : l.conditionalIds = []) :
    ∃ l', (g.pipelines.objects.map (Pipeline.toRecord g.actions)).foldlM Loader.addPipeline l =
        .ok l' ∧
      g.Rebuilt l g.pipelines.objects l' := by
  rw [List.foldlM_map]
  refine foldlM_progress (g.Rebuilt l) (.start hl htables hconditionals) ?_
  intro done q rest l₁ hsplit hl₁
  exact hl₁.next h hids hsplit (hflex q (h.mem_of_split hsplit).1) hactions

/-! ### Documents -/

/-- What the document of a program has to meet to be loaded again: its nodes have ids of their
own, the inputs of its calculations are declared, and every conditional has a condition or is a
flex node. -/
structure Reloadable (g : Program) : Prop where
  nodeIds : UniqueIds g.HasNode
  inputs : ∀ c ∈ g.calculations.objects, ∀ f ∈ c.inputs, (g.layout.width? f.1).isSome
  conditions : ∀ p ∈ g.pipelines.objects, ∀ c ∈ p.conditionals, c.condition? = none → c.flex = true

theorem layout_root (h : g.Sound) :
    Layout.ofSections (g.root.get? "header_types") (g.root.get? "headers") = .ok g.layout := by
  rw [get?_root_of_not_mem (by decide), get?_root_of_not_mem (by decide)]
  exact h.layout

/-- Programs with the same records and unknown fields have the same document. -/
theorem document_congr {g' : Program}
    (ha : g'.arrays.objects.map RegisterArray.toRecord =
      g.arrays.objects.map RegisterArray.toRecord)
    (hc : g'.calculations.objects.map Calculation.toRecord =
      g.calculations.objects.map Calculation.toRecord)
    (hact : g'.actions.actions = g.actions.actions)
    (hp : g'.pipelines.objects.map (Pipeline.toRecord g.actions) =
      g.pipelines.objects.map (Pipeline.toRecord g.actions))
    (hextra : g'.extra = g.extra) : g'.document = g.document := by
  have hsections : ∀ g : Program, g.sections =
      [("register_arrays", .array ((g.arrays.objects.map RegisterArray.toRecord).map (·.encode))),
        ("calculations",
          .array ((g.calculations.objects.map Calculation.toRecord).map (·.encode))),
        ("actions", .array ((g.actions.actions.map Action.toRecord).map (·.encode))),
        ("pipelines",
          .array ((g.pipelines.objects.map (Pipeline.toRecord g.actions)).map (·.encode)))] := by
    intro g
    simp only [List.map_map]
    rfl
  have hpipelines : g'.pipelines.objects.map (Pipeline.toRecord g'.actions) =
      g'.pipelines.objects.map (Pipeline.toRecord g.actions) :=
    List.map_congr_left fun p _ => Pipeline.toRecord_congr_actions hact p
  rw [document, document, hsections, hsections, ha, hc, hact, hpipelines, hp, hextra]

open Loader in
/-- The document of a reloadable program can be loaded, into a program with that document. -/
theorem ofDocument_document (h : g.Sound) (hids : g.ValidIds) (hr : g.Reloadable) (s : Store) :
    ∃ g' s', ofDocument s g.document = .ok (g', s') ∧ g'.document = g.document := by
  have hread := h.readable hids
  obtain ⟨l₁, h₁, harrays, hframe₁⟩ := addArrays_toRecord
    (l := { program := { layout := g.layout }, store := s }) rfl h.arrays h.arraysConsistent.before
  have hinputs : ∀ c ∈ g.calculations.objects, ∀ f ∈ c.inputs,
      (l₁.program.layout.width? f.1).isSome := by
    rw [hframe₁]
    exact hr.inputs
  obtain ⟨l₂, h₂, hcalculations, hframe₂⟩ := addCalculations_toRecord (l := l₁)
    (by rw [hframe₁]; rfl) h.calculations hinputs h.calculationsConsistent.before
  obtain ⟨l₃, h₃, hactions, hframe₃⟩ := addActions_toRecord (l := l₂)
    (by rw [hframe₂, hframe₁]) h.actions h.actionIds
  obtain ⟨l₄, h₄, ⟨hpipelines, -, hframe₄, -, -⟩⟩ := h.addPipelines (l := l₃) hr.nodeIds
    hr.conditions
    (by rw [hframe₃, hframe₂, hframe₁]; rfl) hactions (by rw [hframe₃, hframe₂, hframe₁])
    (by rw [hframe₃, hframe₂, hframe₁])
  refine ⟨{ l₄.program with extra := g.root.without sectionKeys }, l₄.store, ?_, ?_⟩
  · exact ofDocument_eq_ok.mpr ⟨g.root, g.layout, _, _, _, _, l₁, l₂, l₃, l₄, rfl, layout_root h,
      hread.arrays, hread.calculations, hread.actions, hread.pipelines, h₁, h₂, h₃, h₄, rfl, rfl⟩
  · refine document_congr ?_ ?_ ?_ hpipelines (without_root h.extra)
    · show l₄.program.arrays.objects.map _ = _
      rw [hframe₄, hframe₃, hframe₂]
      exact harrays
    · show l₄.program.calculations.objects.map _ = _
      rw [hframe₄, hframe₃]
      exact hcalculations
    · show l₄.program.actions.actions = _
      rw [hframe₄]
      exact hactions

open Loader in
/-- Only the document of a reloadable program can be loaded. -/
theorem reloadable_of_ofDocument (h : g.Sound) {s s' : Store} {g' : Program}
    (hload : ofDocument s g.document = .ok (g', s')) : g.Reloadable := by
  obtain ⟨_, layout, _, _, _, _, l₁, l₂, l₃, l₄, hroot, hlayout, ha, hc, hact, hp, h₁, h₂, h₃, h₄,
    -, -⟩ := ofDocument_eq_ok.mp hload
  replace hroot : some g.root = some _ := hroot
  cases hroot
  rw [layout_root h] at hlayout
  cases hlayout
  have hread := h.readable (validIds_of_recordsOf ha hc hact hp)
  have hl₃ := ((holds_start (P := "") g.layout s).adds
    (((adds_foldlM .array ha h₁).trans (adds_foldlM .calculation hc h₂)).trans
      (adds_foldlM .action hact h₃))).1
  obtain ⟨hl₄, -, hnodes⟩ := hasNode_addPipelines h₄ hl₃ fun _ hr => exists_of_recordsOf hp hr
  rw [hread.calculations] at hc
  rw [hread.pipelines] at hp
  cases hc
  cases hp
  refine ⟨hl₄.ids.mono ?_, fun c hmem => ?_, fun p hmem c hc => ?_⟩
  · -- the loader has seen the nodes of the program under their ids
    rintro P x ⟨p, hmem, rfl, n, hn, rfl⟩
    obtain ⟨y, hy, hyx⟩ := Pipeline.mem_outlines_toRecord g.actions hn
    exact Or.inl (hyx ▸ hnodes _ (List.mem_map_of_mem hmem) y hy)
  · have hlayout₁ : l₁.program.layout = g.layout := by
      refine foldlM_induction (P := fun l => l.program.layout = g.layout) ?_ rfl h₁
      intro r _ l l' hl hstep
      obtain ⟨_, -, -, -, rfl⟩ := addArray_eq_ok.mp hstep
      exact hl
    have hsteps := exists_step_of_foldlM (P := fun l => l.program.layout = g.layout) h₂ hlayout₁ (by
      intro l l' r hl hstep
      obtain ⟨_, _, -, -, rfl⟩ := addCalculation_eq_ok.mp hstep
      exact hl)
    obtain ⟨l, l', hl, hstep⟩ := hsteps c.toRecord (List.mem_map_of_mem hmem)
    obtain ⟨c', _, hc', -⟩ := addCalculation_eq_ok.mp hstep
    rw [hl] at hc'
    exact ((h.calculations c hmem).ofRecord_toRecord g.layout).mp ⟨c', hc'⟩
  · obtain ⟨l, l', -, hstep⟩ := exists_step_of_foldlM (P := fun _ => True) h₄ trivial
      (fun _ _ _ _ _ => trivial) _ (List.mem_map_of_mem hmem)
    obtain ⟨m₁, q₁, m₂, q₂, -, -, -, -, -, hadd, -⟩ := addPipeline_eq_ok.mp hstep
    obtain ⟨⟨m, q⟩, ⟨m', q'⟩, -, hstep⟩ := exists_step_of_foldlM (P := fun _ => True) hadd trivial
      (fun _ _ _ _ _ => trivial) _ (List.mem_map_of_mem hc)
    obtain ⟨c', ref, -, hc', -⟩ := addConditional_eq_ok.mp hstep
    have hsound : c.Sound := (h.pipelines p hmem).nodes _ (Pipeline.mem_conditionals.mp hc)
    exact ((Conditional.conditionalOf_toRecord hsound p).mp hc').1

end Program

end LiveSwitch
