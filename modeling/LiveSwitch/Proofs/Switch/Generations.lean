import LiveSwitch.Proofs.Document.Wiring
import LiveSwitch.Proofs.Switch.History

/-!
# Where the programs of a switch come from

Every program that a switch runs or ran was loaded from a document and then changed by plans,
with changes of table entries in between.  Such a program comes with the log of its graphs, and
its pipelines agree with that log.

## Main definitions

* `Program.Reached` — the programs that a switch can come to run.
* `Table.KeepsGraph` — a change of a table in something other than its edges.
* `Program.Traced` — the programs that are reached by edits, each with the log of its graphs.
* `History.Runs` — the generations of a history.

## Main results

* `History.reached_after` — every generation of every history runs a program that is reached.
* `Program.Traced.follows` — the pipelines of a traced program agree with its log.
* `Program.Reached.traced` — every program that is reached is traced.
-/

namespace LiveSwitch

/-- A table is changed by one of the operations on its entries. -/
inductive Table.EntryChange (t t' : Table) : Prop
  | add (key : List UInt64) (e : TableEntry) (h : t.addEntry key e = .ok t')
  | delete (key : List UInt64) (h : t.deleteEntry key = .ok t')
  | setDefault (e : TableEntry) (h : t.setDefault e = .ok t')

/-- The programs that are reached from the empty one and from loaded documents by plans that
succeed, each with a loaded document as its donor, and by changes of table entries. -/
inductive Program.Reached : Program → Prop
  | start : Reached {}
  | load {g : Program} {s s' : Store} {v : Json.Value} (h : ofDocument s v = .ok (g, s')) :
    Reached g
  | plan {g g' donor : Program} {s s' s₁ s₂ : Store} {v : Json.Value} {l : List Edit}
    (h : Reached g) (hdonor : ofDocument s₁ v = .ok (donor, s₂)) (hl : ∀ e ∈ l, e.Valid)
    (hrun : l.foldlM (Edit.run donor) (g, s) = .ok (g', s')) : Reached (g'.commitArrays s').1
  | entry {g : Program} {pipeline table : String} {p : Pipeline} {t t' : Table}
    (h : Reached g) (hp : g.pipeline? pipeline = some p) (ht : p.table? table = some t)
    (hchange : t.EntryChange t') :
    Reached (g.setPipeline pipeline (p.modifyTable table fun _ => t'))

/-! ### The graphs of a program -/

/-- A table is changed in something other than its identity and its edges. -/
def Table.KeepsGraph (t t' : Table) : Prop :=
  t'.identity = t.identity ∧ ∀ q, (Node.table t').edgeAt? q = (Node.table t).edgeAt? q

namespace Table

variable {t t' : Table}

theorem keepsGraph_addEntry {key : List UInt64} {e : TableEntry} (h : t.addEntry key e = .ok t') :
    t.KeepsGraph t' := by
  simp only [addEntry, bind_eq_ok, pure_eq_ok] at h
  obtain ⟨_, -, _, -, rfl⟩ := h
  exact ⟨rfl, fun q => by cases q <;> rfl⟩

theorem keepsGraph_deleteEntry {key : List UInt64} (h : t.deleteEntry key = .ok t') :
    t.KeepsGraph t' := by
  simp only [deleteEntry, bind_eq_ok] at h
  obtain ⟨_, -, h⟩ := h
  split at h
  · cases h
    exact ⟨rfl, fun q => by cases q <;> rfl⟩
  · cases h

theorem keepsGraph_setDefault {e : TableEntry} (h : t.setDefault e = .ok t') :
    t.KeepsGraph t' := by
  simp only [setDefault, bind_eq_ok, pure_eq_ok] at h
  obtain ⟨_, -, rfl⟩ := h
  exact ⟨rfl, fun q => by cases q <;> rfl⟩

theorem EntryChange.keepsGraph (h : t.EntryChange t') : t.KeepsGraph t' := by
  cases h with
  | add key e h => exact keepsGraph_addEntry h
  | delete key h => exact keepsGraph_deleteEntry h
  | setDefault e h => exact keepsGraph_setDefault h

end Table

namespace Program

/-- The programs that are reached from the empty one and from loaded documents by edits, commits
and changes of table entries, each with the log of its graphs. -/
inductive Traced : Program → Log → Prop
  | start : Traced {} []
  | load {g : Program} {s s' : Store} {v : Json.Value} (h : ofDocument s v = .ok (g, s')) :
    Traced g (Log.ofDocument g v)
  | edit {g g' donor : Program} {log : Log} {s s' : Store} {e : Edit} (h : Traced g log)
    (hrun : e.run donor (g, s) = .ok (g', s')) : Traced g' (log ++ e.log g)
  | commit {g : Program} {log : Log} (h : Traced g log) (s : Store) :
    Traced (g.commitArrays s).1 log
  | entry {g : Program} {log : Log} {pipeline table : String} {p : Pipeline} {t t' : Table}
    (h : Traced g log) (hp : g.pipeline? pipeline = some p) (ht : p.table? table = some t)
    (hgraph : t.KeepsGraph t') :
    Traced (g.setPipeline pipeline (p.modifyTable table fun _ => t')) log

/-- The graph of a pipeline does not tell what a table has apart from its edges. -/
theorem Follows.modifyTable {g : Program} {log : Log} {pipeline table : String} {p : Pipeline}
    {t t' : Table} (h : g.Follows log) (hp : g.pipeline? pipeline = some p)
    (ht : p.table? table = some t) (hgraph : t.KeepsGraph t') :
    (g.setPipeline pipeline (p.modifyTable table fun _ => t')).Follows log := by
  obtain ⟨seat, hseat⟩ := h.get hp
  have hname : (p.modifyTable table fun _ => t').name = pipeline := by
    rw [Pipeline.name, Pipeline.modifyTable, Pipeline.identity_modifyNode]
    exact name_of_pipeline? hp
  have hagrees : (p.modifyTable table fun _ => t').Agrees (log.wiring pipeline) := by
    refine ⟨seat, hseat.rewrite fun n hn => ?_⟩
    have hnt := Pipeline.node?_of_table? ht
    rw [hn] at hnt
    cases hnt
    exact ⟨congrArg Identity.name hgraph.1, hgraph.2⟩
  have hset := h.set [] hname hagrees
  rwa [List.map_nil, List.append_nil] at hset

namespace Traced

variable {g g' : Program} {log : Log}

/-- The pipelines of a traced program agree with its log. -/
theorem follows (h : g.Traced log) : g.Follows log := by
  induction h with
  | start => exact fun p hp => by cases hp
  | load h => exact follows_ofDocument h
  | edit _ hrun ih => exact ih.edit hrun
  | commit _ _ ih => exact ih.congr rfl
  | entry _ hp ht hgraph ih => exact ih.modifyTable hp ht hgraph

/-- The edits of a plan, one after the other. -/
theorem edits {donor : Program} {s s' : Store} {l : List Edit} (h : g.Traced log)
    (hl : l.foldlM (Edit.run donor) (g, s) = .ok (g', s')) : ∃ log', g'.Traced log' := by
  refine foldlM_induction (P := fun x => ∃ log', x.1.Traced log') ?_ ⟨log, h⟩ hl
  rintro e - ⟨g, s⟩ ⟨g', s'⟩ ⟨log, h⟩ hrun
  exact ⟨_, h.edit hrun⟩

end Traced

/-- Every program that is reached is traced. -/
theorem Reached.traced {g : Program} (h : g.Reached) : ∃ log, g.Traced log := by
  induction h with
  | start => exact ⟨[], .start⟩
  | load h => exact ⟨_, .load h⟩
  | @plan g g' donor s s' _ _ _ l _ _ _ hrun ih =>
    obtain ⟨log, hlog⟩ := ih
    obtain ⟨log', hlog'⟩ := hlog.edits hrun
    exact ⟨log', hlog'.commit s'⟩
  | entry _ hp ht hchange ih =>
    obtain ⟨log, hlog⟩ := ih
    exact ⟨log, hlog.entry hp ht hchange.keepsGraph⟩

end Program

namespace History

/-- A generation that a context runs or ran. -/
def Runs (h : History) (g : Generation) : Prop :=
  (∃ c ∈ h.switch.contexts, c.active = g) ∨ ∃ cxt, (cxt, g) ∈ h.retired

/-- The program of every generation is reached. -/
def AllReached (h : History) : Prop := ∀ g, h.Runs g → g.program.Reached

variable {h : History}

theorem mem_modify_context {l : List Context} {i : Nat} {f : Context → Context} {c : Context}
    (hc : c ∈ l.modify i f) : c ∈ l ∨ ∃ c₀, l[i]? = some c₀ ∧ c = f c₀ := by
  obtain ⟨j, hj⟩ := List.mem_iff_getElem?.mp hc
  rw [List.getElem?_modify] at hj
  by_cases hij : i = j
  · subst hij
    rw [Option.map_eq_map, Option.map_eq_some_iff] at hj
    obtain ⟨c₀, hc₀, rfl⟩ := hj
    exact Or.inr ⟨c₀, hc₀, by simp⟩
  · simp only [hij, if_false, Option.map_eq_map, Option.map_id_fun', id_eq] at hj
    exact Or.inl (List.mem_of_getElem? hj)

theorem AllReached.active (ht : h.AllReached) {cxt : Nat} {c : Context}
    (hc : h.switch.contexts[cxt]? = some c) : c.active.program.Reached :=
  ht c.active (Or.inl ⟨c, List.mem_of_getElem? hc, rfl⟩)

/-- One context is changed, and runs a reached program afterwards. -/
theorem AllReached.modify (ht : h.AllReached) {cxt : Nat} {f : Context → Context} {s : Store}
    (hf : ∀ c, h.switch.contexts[cxt]? = some c → (f c).active.program.Reached) :
    AllReached { h with switch := ⟨h.switch.contexts.modify cxt f, s⟩ } := by
  rintro g (⟨c, hc, rfl⟩ | hg)
  · rcases mem_modify_context hc with hc | ⟨c₀, hc₀, rfl⟩
    · exact ht _ (Or.inl ⟨c, hc, rfl⟩)
    · exact hf c₀ hc₀
  · exact ht g (Or.inr hg)

theorem AllReached.publish (ht : h.AllReached) {cxt : Nat} {f : Context → Context} {s : Store}
    (hf : ∀ c, h.switch.contexts[cxt]? = some c → (f c).active.program.Reached) :
    (h.publish cxt ⟨h.switch.contexts.modify cxt f, s⟩).AllReached := by
  have hmodify := ht.modify (s := s) hf
  rintro g (hg | ⟨i, hg⟩)
  · exact hmodify g (Or.inl hg)
  · rw [History.publish, List.mem_append, Option.mem_toList, Option.map_eq_some_iff] at hg
    rcases hg with ⟨c, hc, heq⟩ | hg
    · cases heq
      exact ht.active hc
    · exact ht g (Or.inr ⟨i, hg⟩)

/-- An operation on the entries of a table. -/
theorem AllReached.editTable (ht : h.AllReached) {cxt : Nat} {pipeline table : String}
    {edit : Program → Table → Except SwitchError Table}
    (hedit : ∀ g t t', edit g t = .ok t' → t.EntryChange t') :
    (h.update (h.switch.editTable cxt pipeline table edit)).AllReached := by
  cases hx : h.switch.editTable cxt pipeline table edit with
  | error e => exact ht
  | ok w =>
    obtain ⟨c, p, t, t', hc, hp, htable, ht', rfl⟩ := Switch.editTable_ok hx
    refine ht.modify fun c' hc' => ?_
    exact (ht.active hc).entry hp htable (hedit _ t t' ht')

theorem allReached_load (ht : h.AllReached) (cxt : Nat) (document : FileContent) :
    (h.apply (.load cxt document)).AllReached := by
  rcases h.apply_load_cases cxt document with heq | ⟨c, program, s, -, hfile, heq⟩
  · rw [heq]
    exact ht
  · rw [heq]
    obtain ⟨v, hdocument⟩ := Program.ofFile_ok hfile
    exact ht.publish fun _ _ => Program.Reached.load hdocument

theorem allReached_plan (hs : h.Separate) (ht : h.AllReached) (cxt : Nat)
    (document plan : FileContent) : (h.apply (.plan cxt document plan)).AllReached := by
  rcases Switch.applyPlan_cases (hs.active cxt) document plan with
    ⟨s, code, hcode, -, heq⟩ | ⟨c, program, s, n, hc, hleads, heq⟩
  · rw [apply_plan_failed hcode heq]
    refine ht.modify fun c hc => ?_
    exact ht.active (c := c) hc
  · rw [apply_plan_success heq]
    refine ht.publish fun c' hc' => ?_
    obtain ⟨donor, _, l, hfile, hvalid, hl⟩ := hleads
    -- the donor of a plan was loaded from a document
    obtain ⟨v, hdonor⟩ := Program.ofFile_ok hfile
    exact (ht.active hc).plan hdonor hvalid hl

theorem allReached_apply (hs : h.Separate) (ht : h.AllReached) (e : Event) :
    (h.apply e).AllReached := by
  by_cases he : e.isAccess = true
  · obtain ⟨store, -, heq⟩ := h.apply_access he
    rw [heq]
    exact ht
  cases e with
  | load cxt document => exact allReached_load ht cxt document
  | plan cxt document plan => exact allReached_plan hs ht cxt document plan
  | addEntry cxt pipeline table key action data =>
    refine ht.editTable fun g t t' hedit => ?_
    simp only [bind_eq_ok, mapError_eq_ok] at hedit
    obtain ⟨_, -, hadd⟩ := hedit
    exact .add key _ hadd
  | deleteEntry cxt pipeline table key =>
    exact ht.editTable fun g t t' hedit => .delete key (mapError_eq_ok.mp hedit)
  | setDefault cxt pipeline table action data =>
    refine ht.editTable fun g t t' hedit => ?_
    simp only [bind_eq_ok, mapError_eq_ok] at hedit
    obtain ⟨_, -, hset⟩ := hedit
    exact .setDefault _ hset
  | _ => exact absurd rfl he

theorem AllReached.after (hs : h.Separate) (ht : h.AllReached) (events : List Event) :
    (h.after events).AllReached := by
  rw [History.after]
  induction events generalizing h with
  | nil => exact ht
  | cons e events ih => exact ih (separate_apply hs e) (allReached_apply hs ht e)

/-- Every generation that a switch runs or ran has a program that is reached. -/
theorem reached_after (n : Nat) (events : List Event) {g : Generation}
    (hg : ((start n).after events).Runs g) : g.program.Reached := by
  have hstart : (start n).AllReached := by
    rintro g (⟨c, hc, rfl⟩ | ⟨i, hi⟩)
    · have hc' : c = {} := List.eq_of_mem_replicate hc
      subst hc'
      exact .start
    · cases hi
  exact hstart.after (separate_start n) events g hg

end History

end LiveSwitch
