import LiveSwitch.Proofs.Plan.NodeEdits

/-!
# The history of a program's graphs

A log lists what happened to the graphs of a program, each event with the pipeline it happened
to.  Every edit says in advance which events it stands for, by names alone; the edits of
register arrays stand for none.  When it succeeds, the slots of all pipelines still agree with
the log.

## Main definitions

* `Log.wiring` — what a log says about one pipeline.
* `Program.Follows` — the pipelines of a program agree with a log.

## Main results

* `Program.Follows.edit` — an edit keeps the pipelines in agreement with the log.
-/

namespace LiveSwitch

namespace Log

/-- The events of one pipeline. -/
def eventsOf (log : Log) (pipeline : String) : List GraphEvent :=
  log.filterMap fun x => if x.1 = pipeline then some x.2 else none

/-- What a log says about one pipeline. -/
def wiring (log : Log) (pipeline : String) : Wiring := Wiring.after {} (log.eventsOf pipeline)

theorem eventsOf_append (log log' : Log) (pipeline : String) :
    eventsOf (log ++ log') pipeline = log.eventsOf pipeline ++ eventsOf log' pipeline :=
  List.filterMap_append

theorem eventsOf_map_self (pipeline : String) (events : List GraphEvent) :
    eventsOf (events.map fun e => (pipeline, e)) pipeline = events := by
  have hsome : ((fun x : String × GraphEvent => if x.1 = pipeline then some x.2 else none) ∘
      fun e => (pipeline, e)) = some := by
    funext e
    exact if_pos rfl
  rw [eventsOf, List.filterMap_map, hsome, List.filterMap_some]

theorem eventsOf_eq_nil {log : Log} {pipeline : String} (h : ∀ x ∈ log, x.1 ≠ pipeline) :
    log.eventsOf pipeline = [] := by
  rw [eventsOf, List.filterMap_eq_nil_iff]
  intro x hx
  exact if_neg (h x hx)

/-- Events of one pipeline add to what the log says about it. -/
theorem wiring_append_self (log : Log) (pipeline : String) (events : List GraphEvent) :
    wiring (log ++ events.map fun e => (pipeline, e)) pipeline =
      (log.wiring pipeline).after events := by
  rw [wiring, eventsOf_append, eventsOf_map_self, Wiring.after, List.foldl_append]
  rfl

/-- Events of other pipelines say nothing about a pipeline. -/
theorem wiring_append_of_ne {log log' : Log} {pipeline : String}
    (h : ∀ x ∈ log', x.1 ≠ pipeline) : wiring (log ++ log') pipeline = log.wiring pipeline := by
  rw [wiring, eventsOf_append, eventsOf_eq_nil h, List.append_nil, wiring]

/-- Without deletions no slot of any pipeline is ever freed. -/
theorem freed_eq_zero {log : Log} (h : ∀ x ∈ log, x.2.isDelete = false) (pipeline : String)
    (i : Nat) : (log.wiring pipeline).freed i = 0 := by
  have hevents : ∀ e ∈ log.eventsOf pipeline, e.isDelete = false := by
    intro e he
    obtain ⟨x, hx, hxe⟩ := List.mem_filterMap.mp he
    split at hxe
    · cases hxe
      exact h x hx
    · cases hxe
  rw [wiring, Wiring.freed_after_eq hevents]

end Log

/-! ### Pipelines of a program -/

/-- A pipeline agrees with its history, for some seats of its nodes. -/
def Pipeline.Agrees (p : Pipeline) (w : Wiring) : Prop := ∃ seat, p.Follows w seat

namespace Program

variable {g g' donor : Program} {log : Log} {pipeline : String} {p p' : Pipeline}

/-- The pipelines of a program agree with a log. -/
def Follows (g : Program) (log : Log) : Prop :=
  ∀ p ∈ g.pipelines.objects, p.Agrees (log.wiring p.name)

theorem Follows.get (h : g.Follows log) (hp : g.pipeline? pipeline = some p) :
    p.Agrees (log.wiring pipeline) := by
  obtain ⟨hmem, hname⟩ := ObjectMap.mem_of_get? hp
  have hagrees := h p hmem
  rwa [show p.name = pipeline from hname] at hagrees

theorem Follows.congr (h : g.Follows log) (hg : g'.pipelines = g.pipelines) :
    g'.Follows log := by
  intro p hp
  rw [hg] at hp
  exact h p hp

/-- One pipeline is changed, and the log grows by the events of that change. -/
theorem Follows.set (h : g.Follows log) (events : List GraphEvent) (hname : p'.name = pipeline)
    (hp' : p'.Agrees ((log.wiring pipeline).after events)) :
    (g.setPipeline pipeline p').Follows (log ++ events.map fun e => (pipeline, e)) := by
  intro b hb
  obtain ⟨a, ha, rfl⟩ := ObjectMap.mem_modify.mp hb
  by_cases hn : nameOf a = pipeline
  · rw [if_pos hn, hname, Log.wiring_append_self]
    exact hp'
  · rw [if_neg hn, Log.wiring_append_of_ne]
    · exact h a ha
    · intro x hx
      obtain ⟨e, -, rfl⟩ := List.mem_map.mp hx
      exact Ne.symm hn

theorem name_of_pipeline? (hp : g.pipeline? pipeline = some p) : p.name = pipeline :=
  (ObjectMap.mem_of_get? hp).2

/-- A node without edges, or with edges to nodes of the pipeline, is inserted. -/
theorem Follows.insert (h : g.Follows log) (hp : g.pipeline? pipeline = some p) {n : Node}
    {r : NodeRef} (targets : Port → Option String)
    (he : ∀ q e, n.edgeAt? q = some e → e = (targets q).bind p.find?)
    (hins : p.insertNode n = .ok (r, p')) :
    (g.setPipeline pipeline p').Follows (log ++ [(pipeline, .insert n.name targets)]) := by
  obtain ⟨seat, hseat⟩ := h.get hp
  refine h.set [.insert n.name targets] ?_ (hseat.insert targets he hins)
  rw [Pipeline.name, Pipeline.identity_insertNode hins]
  exact name_of_pipeline? hp

theorem Follows.wire (h : g.Follows log) (hp : g.pipeline? pipeline = some p) (name : String)
    (q : Port) {e : Edge} {target? : Option String} (he : e = target?.bind p.find?) :
    (g.setPipeline pipeline (p.modifyNode name (Node.setEdge q e))).Follows
      (log ++ [(pipeline, .wire (.port name q) target?)]) := by
  subst he
  obtain ⟨seat, hseat⟩ := h.get hp
  refine h.set [.wire (.port name q) target?] ?_ ⟨seat, hseat.wire name q target?⟩
  rw [Pipeline.name, Pipeline.identity_modifyNode]
  exact name_of_pipeline? hp

theorem Follows.delete (h : g.Follows log) (hp : g.pipeline? pipeline = some p) {name : String}
    {r : NodeRef} (hr : p.find? name = some r) :
    (g.setPipeline pipeline (p.removeNode name)).Follows
      (log ++ [(pipeline, .delete name r.slot)]) := by
  obtain ⟨seat, hseat⟩ := h.get hp
  refine h.set [.delete name r.slot] ?_ ⟨seat, hseat.delete hr⟩
  rw [Pipeline.name, Pipeline.identity_removeNode]
  exact name_of_pipeline? hp

/-! ### All edits -/

/-- Edits of register arrays leave everything else as it is, the graphs included. -/
theorem frame_of_not_onNodes {s s' : Store} {e : Edit} (he : e.onNodes = false)
    (hrun : e.run donor (g, s) = .ok (g', s')) :
    g' = { g with arrays := g'.arrays } ∧ e.log g = [] := by
  cases e with
  | insertArray name size bitwidth =>
    obtain ⟨arrays, -, rfl, -⟩ := insertArray_ok hrun
    exact ⟨rfl, rfl⟩
  | resizeArray name size =>
    obtain ⟨hg, rfl⟩ := pair_eq_ok.mp hrun
    obtain ⟨a, -, rfl⟩ := resizeArray_ok hg
    exact ⟨rfl, rfl⟩
  | rewidenArray name bitwidth =>
    obtain ⟨hg, rfl⟩ := pair_eq_ok.mp hrun
    obtain ⟨a, -, rfl⟩ := rewidenArray_ok hg
    exact ⟨rfl, rfl⟩
  | deleteArray name =>
    obtain ⟨hg, rfl⟩ := pair_eq_ok.mp hrun
    obtain ⟨a, -, rfl⟩ := deleteArray_ok hg
    exact ⟨rfl, rfl⟩
  | rehashArray r =>
    obtain ⟨target, reset, inputs, -, -, rfl, -⟩ := rehashArray_ok hrun
    exact ⟨rfl, rfl⟩
  | _ => cases he

/-- An edit that succeeds keeps the pipelines in agreement with the log. -/
theorem Follows.edit (h : g.Follows log) {s s' : Store} {e : Edit}
    (hrun : e.run donor (g, s) = .ok (g', s')) : g'.Follows (log ++ e.log g) := by
  by_cases he : e.onNodes = false
  · obtain ⟨hframe, hlog⟩ := frame_of_not_onNodes he hrun
    rw [hframe, hlog, List.append_nil]
    exact h.congr rfl
  obtain ⟨hchange, -⟩ := Edit.nodeChange_run (Bool.not_eq_false _ ▸ he) hrun
  cases hchange with
  | insert targets hp hadopt hins hids hedges hbrings hinserts hdeletes hlog =>
    obtain ⟨actions, calculations, rfl⟩ := adoptActions_ok hadopt
    rw [hlog]
    exact (h.insert hp targets hedges hins).congr rfl
  | wire hp hedge hinserts hdeletes hlog =>
    rw [hlog]
    exact h.wire hp _ _ hedge
  | delete hp hn hr hinserts hdeletes hlog =>
    rw [hlog]
    exact h.delete hp hr

end Program

end LiveSwitch
