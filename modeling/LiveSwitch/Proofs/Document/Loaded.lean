import LiveSwitch.Proofs.Document.Counters
import LiveSwitch.Proofs.Document.Revisions
import LiveSwitch.Proofs.Program.Walks

/-!
# What a loaded program is like

A program that was just loaded has more to it than one that was edited since.  All its edges lead
to nodes, tables have no entries yet, an edge of an action stands under a key by which a document
can name it, calculations hash what the program's own header sections declare, no name is stray, and
as long as the largest id is not in use every counter stands right above the ids of its kind.  So it
is determined by its document, but for the slots and storages, and for what the counters are after
the largest id.

## Main definitions

* `Records.ids` — the ids of a kind that a document shows.
* `Pipeline.Intact` — every edge of a pipeline leads to a node.
* `Program.Loaded` — what holds of a loaded program.

## Main results

* `Program.mem_ids` — the ids that a document shows are those in use.
* `Program.loaded_ofDocument` — a loaded program is like that.
* `Program.Loaded.reloadable` — so its document can be loaded again.
-/

namespace LiveSwitch

open Json

/-! ### Ids -/

/-- The ids of the objects of a kind that a document shows; conditionals and flex nodes have
theirs in common. -/
def Records.ids (r : Records) : ObjectKind → List Int
  | .pipeline => r.pipelines.map (·.identity.id)
  | .node | .conditional | .flex => r.pipelines.flatMap fun p => p.conditionals.map (·.identity.id)
  | .table => r.pipelines.flatMap fun p => p.tables.map (·.identity.id)
  | .action => r.actions.map (·.identity.id)
  | .registerArray => r.arrays.map (·.identity.id)
  | .calculation => r.calculations.map (·.identity.id)

namespace Program

variable {g : Program} {id : Int}

/-- Calculations hash what is declared. -/
def Declared (g : Program) : Prop := ∀ c ∈ g.calculations.objects,
  c.inputJson.mapM (Calculation.decodeInput g.layout c.identity.name) = .ok c.inputs

theorem mem_ids_table : id ∈ g.records.ids .table ↔
    id ∈ (g.nodeHoldings true).map fun x => x.2.id := by
  rw [mem_nodeIds]
  simp only [Records.ids, records, Pipeline.toRecord, List.mem_flatMap, List.mem_map,
    exists_exists_and_eq_and]
  constructor
  · rintro ⟨p, hp, t, ht, rfl⟩
    exact ⟨p.name, t.identity, ⟨p, hp, rfl, .table t, Pipeline.mem_tables.mp ht, rfl⟩, rfl⟩
  · rintro ⟨P, i, ⟨p, hp, -, n, hn, htag⟩, rfl⟩
    cases n with
    | conditional c => cases htag
    | table t =>
      cases htag
      exact ⟨p, hp, t, Pipeline.mem_tables.mpr hn, rfl⟩

theorem mem_ids_conditional : id ∈ g.records.ids .conditional ↔
    id ∈ (g.nodeHoldings false).map fun x => x.2.id := by
  rw [mem_nodeIds]
  simp only [Records.ids, records, Pipeline.toRecord, List.mem_flatMap, List.mem_map,
    exists_exists_and_eq_and]
  constructor
  · rintro ⟨p, hp, c, hc, rfl⟩
    exact ⟨p.name, c.identity, ⟨p, hp, rfl, .conditional c, Pipeline.mem_conditionals.mp hc, rfl⟩,
      rfl⟩
  · rintro ⟨P, i, ⟨p, hp, -, n, hn, htag⟩, rfl⟩
    cases n with
    | table t => cases htag
    | conditional c =>
      cases htag
      exact ⟨p, hp, c, Pipeline.mem_conditionals.mpr hn, rfl⟩

/-- The ids that a document shows are those in use. -/
theorem mem_ids {kind : ObjectKind} : id ∈ g.records.ids kind ↔ id ∈ g.idsInUse kind := by
  cases kind with
  | table => exact mem_ids_table
  | node | conditional | flex => exact mem_ids_conditional
  | pipeline | action | registerArray | calculation =>
    simp only [Records.ids, records, idsInUse, holdings, List.map_map]
    rfl

end Program

namespace Loader

variable {l l' : Loader}

theorem Adds.declared (h : l.Adds l') (hl : l.program.Declared) : l'.program.Declared := by
  cases h with
  | array _ h =>
    obtain ⟨_, -, -, -, rfl⟩ := addArray_eq_ok.mp h
    exact hl
  | calculation _ h =>
    obtain ⟨c, _, hc, hins, rfl⟩ := addCalculation_eq_ok.mp h
    obtain ⟨_, _, -, hinputs, rfl⟩ := Calculation.ofRecord_eq_ok.mp hc
    obtain ⟨-, -, rfl⟩ := ObjectMap.insert_eq_ok.mp hins
    intro c hc
    rcases ObjectMap.mem_place.mp hc with rfl | hc
    · exact hinputs
    · exact hl c hc
  | action _ h =>
    obtain ⟨_, _, -, -, rfl⟩ := addAction_eq_ok.mp h
    exact hl
  | pipeline _ h =>
    obtain ⟨-, hprogram⟩ := addPipeline_keep h
    rw [hprogram]
    exact hl

/-- The nodes of all pipelines of a document are those of its records. -/
theorem loaded_addPipelines {root : Object} {records : List PipelineRecord}
    (hrecords : recordsOf root "pipelines" PipelineRecord.decode = .ok records)
    (h : records.foldlM addPipeline l = .ok l') (hl : l.program.pipelines.objects = []) :
    l'.program.AllNodes (Node.Loaded l'.program) := by
  have hall : l'.program.actions = l.program.actions ∧
      l'.program.AllNodes (Node.Loaded l.program) := by
    refine foldlM_induction (P := fun m => m.program.actions = l.program.actions ∧
      m.program.AllNodes (Node.Loaded l.program)) ?_ ⟨rfl, ?_⟩ h
    · rintro r hr m m' ⟨hactions, hm⟩ hstep
      obtain ⟨v, hv⟩ := exists_of_recordsOf hrecords hr
      obtain ⟨p, hins, -, -, hnodes⟩ := nodes_addPipeline hv hstep
      obtain ⟨-, -, hpipelines⟩ := ObjectMap.insert_eq_ok.mp hins
      obtain ⟨-, hprogram⟩ := addPipeline_keep hstep
      refine ⟨by rw [hprogram]; exact hactions, fun q hq => ?_⟩
      rw [hpipelines] at hq
      rcases ObjectMap.mem_place.mp hq with rfl | hq
      · exact fun n hn => (hnodes n hn).congr hactions
      · exact hm q hq
    · intro p hp
      rw [hl] at hp
      cases hp
  exact fun p hp n hn => (hall.2 p hp n hn).congr hall.1.symm

end Loader

/-! ### Loaded programs -/

/-- Every edge of a pipeline leads to a node. -/
def Pipeline.Intact (p : Pipeline) : Prop :=
  ∀ place r, p.edgeAt? place = some (some r) → ∃ n, p.resolve? r = some n

/-- As long as no slot was freed, no edge dangles. -/
theorem Pipeline.Follows.intact {p : Pipeline} {w : Wiring} {seat : Nat → Seat}
    (h : p.Follows w seat) (hfreed : ∀ i, w.freed i = 0) : p.Intact := by
  intro place r he
  obtain ⟨b, hb, rfl⟩ := Option.map_eq_some_iff.mp (h.edgeAt?_eq he).symm
  by_cases halive : w.Alive b
  · obtain ⟨name, hname⟩ := halive
    obtain ⟨n, -, hn, -⟩ := h.node?_of_live hname
    exact ⟨n, hn⟩
  · have hleft := h.left b (h.born place b hb) halive
    rw [hfreed] at hleft
    omega

/-- Loading a pipeline deletes nothing. -/
theorem PipelineRecord.isDelete_of_mem_events {g : Program} {r : PipelineRecord} {e : GraphEvent}
    (he : e ∈ r.events g) : e.isDelete = false := by
  simp only [events, List.mem_append, List.mem_map, List.mem_flatMap, List.mem_singleton] at he
  rcases he with (((⟨t, -, rfl⟩ | ⟨c, -, rfl⟩) | ⟨t, -, he⟩) | ⟨c, -, he⟩) | rfl
  · rfl
  · rfl
  · rcases List.mem_cons.mp he with rfl | he
    · rfl
    · obtain ⟨next, -, hnext⟩ := List.mem_filterMap.mp he
      obtain ⟨q, -, rfl⟩ := Option.map_eq_some_iff.mp hnext
      rfl
  · simp only [ConditionalRecord.wires, List.mem_cons, List.not_mem_nil, or_false] at he
    rcases he with rfl | rfl <;> rfl
  · rfl

theorem Log.isDelete_of_mem_ofDocument {g : Program} {v : Json.Value} {x : String × GraphEvent}
    (hx : x ∈ Log.ofDocument g v) : x.2.isDelete = false := by
  unfold ofDocument at hx
  split at hx
  · split at hx
    · obtain ⟨r, -, hx⟩ := List.mem_flatMap.mp hx
      obtain ⟨e, he, rfl⟩ := List.mem_map.mp hx
      exact PipelineRecord.isDelete_of_mem_events he
    · cases hx
  · cases hx

/-- What holds of a program that was just loaded. -/
structure Program.Loaded (g : Program) : Prop where
  sound : g.Sound
  ids : g.ValidIds
  nodeIds : UniqueIds g.HasNode
  declared : g.Declared
  nodes : g.AllNodes (Node.Loaded g)
  keyed : g.AllNodes fun n => ∀ t ∈ n.table?, t.Keyed
  named : ∀ p ∈ g.pipelines.objects, p.Named
  intact : ∀ p ∈ g.pipelines.objects, p.Intact
  arrays : g.arrays.strays = []
  calculations : g.calculations.strays = []
  countsUp : g.CountsUp

namespace Program

variable {g : Program}

open Loader in
/-- A loaded program has the properties of one. -/
theorem loaded_ofDocument {s s' : Store} {v : Value} (h : ofDocument s v = .ok (g, s')) :
    g.Loaded where
  sound := sound_ofDocument h
  ids := (inRange_ofDocument h).validIds
  nodeIds := (nodeIds_ofDocument h).1
  declared := adds_induction h (fun _ => nofun) (fun _ _ hstep hl => hstep.declared hl)
    fun _ _ hg => hg
  nodes := by
    obtain ⟨root, records, l, l', -, hrecords, hnone, hadd, rfl⟩ := addPipelines_of_ofDocument h
    intro p hp n hn
    exact (loaded_addPipelines hrecords hadd hnone p hp n hn).congr rfl
  keyed := (Reached.load h).allNodes Table.invariant_keyed
  named p hp n hn := by
    obtain ⟨seat, hseat⟩ := follows_ofDocument h p hp
    exact hseat.indexed.node?_of_mem hn
  intact p hp := by
    obtain ⟨seat, hseat⟩ := follows_ofDocument h p hp
    refine hseat.intact fun i => ?_
    exact Log.freed_eq_zero (fun x hx => Log.isDelete_of_mem_ofDocument hx) p.name i
  arrays := (strays_ofDocument h).1
  calculations := (strays_ofDocument h).2
  countsUp := countsUp_ofDocument h

/-- The document of a loaded program can be loaded again. -/
theorem Loaded.reloadable (h : g.Loaded) : g.Reloadable where
  nodeIds := h.nodeIds
  inputs c hc := (Calculation.mapM_decodeInput (h.declared c hc)).mp ⟨_, h.declared c hc⟩
  conditions p hp c hc := (h.nodes p hp _ (Pipeline.mem_conditionals.mp hc)).condition c rfl

end Program

end LiveSwitch
