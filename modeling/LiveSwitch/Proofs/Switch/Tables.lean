import LiveSwitch.Proofs.Plan.Nodes
import LiveSwitch.Proofs.Program.Nodes
import LiveSwitch.Proofs.Switch.Plans
import LiveSwitch.Proofs.Switch.Reloading

/-!
# Tables of a running switch

The entries of a table are in no document: they live in the program that a context runs.  A plan
carries them into the next generation, whatever it does to other objects and to the edges of the
table, unless it deletes the table; and a table that a plan inserts has no entries.  An operation
on a table changes the entries or the default entry of that table, and nothing else at all.

## Main definitions

* `Table.SameState` — two tables match on the same, run the same and have the same entries.
* `TableOperation` — the operations on a table, with what each of them changes.
* `Program.ChangesTable` — a program is another one but for one table.

## Main results

* `Program.Follows.changesTable` — a table that is put in the place of another.
* `History.tables_keep_state` — what plans and operations do to tables.
-/

namespace LiveSwitch

/-! ### Tables that go on -/

/-- Two tables match on the same, run the same and have the same entries. -/
structure Table.SameState (t t' : Table) : Prop where
  matchType : t'.matchType = t.matchType
  keyFields : t'.keyFields = t.keyFields
  actionIds : t'.actionIds = t.actionIds
  default : t'.default? = t.default?
  entries : t'.entries = t.entries

theorem Node.SameBody.table {t : Table} {n : Node} (h : (Node.table t).SameBody n) :
    ∃ t', n = .table t' ∧ t.SameState t' := by
  cases n with
  | conditional c => cases h
  | table t' =>
    have heq : t'.unlinked = t.unlinked := Node.table.inj h
    exact ⟨t', rfl, (congrArg Table.matchType heq :), (congrArg Table.keyFields heq :),
      (congrArg Table.actionIds heq :), (congrArg Table.default? heq :),
      (congrArg Table.entries heq :)⟩

theorem Node.eq_table {n : Node} {t : Table} (h : n.table? = some t) : n = .table t := by
  cases n with
  | conditional c => cases h
  | table t' => cases h; rfl

/-- A table that an edit inserts has no entries. -/
theorem Edit.Brings.entries {donor : Program} {e : Edit} {n : Node} {t : Table}
    (h : e.Brings donor n) (hbody : n.SameBody (.table t)) : t.entries = [] := by
  cases e with
  | insertConditional pipeline name =>
    obtain ⟨_, _, -, rfl⟩ := h
    cases hbody
  | insertFlex pipeline name false? true? =>
    obtain ⟨_, _, _, rfl⟩ := h
    cases hbody
  | insertTable pipeline name =>
    obtain ⟨d, id, ids, -, rfl⟩ := h
    have heq : t.unlinked = (d.instantiate name id ids).unlinked := Node.table.inj hbody
    exact congrArg Table.entries heq
  | _ => exact h.elim

/-- A plan starts from a program that is reached. -/
theorem Program.Reached.wired {g : Program} (h : g.Reached) (store : Store) (donor : Program) :
    Session.Wired { candidate := g, store, donor } := by
  obtain ⟨log, hlog⟩ := h.traced
  exact ⟨⟨log, hlog.follows⟩, h.sound.arraysConsistent, h.sound.actionsCounted⟩

/-- The actions of a table of a reached program are there. -/
theorem Program.Reached.exists_action {g : Program} (h : g.Reached) {P N : String} {t : Table}
    (ht : g.node? P N = some (.table t)) {id : Int} (hid : id ∈ t.actionIds) :
    ∃ a, g.action? id = some a := by
  obtain ⟨p, hp, hnode⟩ := Option.bind_eq_some_iff.mp ht
  have hmem := Pipeline.mem_nodes_of_node? hnode
  have hsound := (h.sound.pipelines p (ObjectMap.mem_of_get? hp).1).nodes _ hmem
  exact Option.isSome_iff_exists.mp (Table.Sound.actions hsound id hid)

/-! ### Operations on a table -/

/-- The operations on a table. -/
inductive TableOperation where
  | addEntry (key : List UInt64) (action : String) (data : List UInt64)
  | deleteEntry (key : List UInt64)
  | setDefault (action : String) (data : List UInt64)

namespace TableOperation

/-- Carries out an operation on a table of a context. -/
def run (w : Switch) (cxt : Nat) (pipeline table : String) :
    TableOperation → Except SwitchError Switch
  | addEntry key action data => w.addEntry cxt pipeline table key action data
  | deleteEntry key => w.deleteEntry cxt pipeline table key
  | setDefault action data => w.setDefault cxt pipeline table action data

/-- The event that an operation is. -/
def event (cxt : Nat) (pipeline table : String) : TableOperation → Event
  | addEntry key action data => .addEntry cxt pipeline table key action data
  | deleteEntry key => .deleteEntry cxt pipeline table key
  | setDefault action data => .setDefault cxt pipeline table action data

/-- What an operation makes of a table: the entry of one key is another one or is gone, or the
default entry is another one. -/
def Changes (g : Program) (t t' : Table) : TableOperation → Prop
  | addEntry key action data => ∃ id, g.actionNamed? t.actionIds action = some id ∧
    t' = { t with entries := t'.entries } ∧
      ∀ k, t'.entry? k = if k = key then some ⟨id, data⟩ else t.entry? k
  | deleteEntry key => t' = { t with entries := t'.entries } ∧
    ∀ k, t'.entry? k = if k = key then none else t.entry? k
  | setDefault action data => ∃ id d, g.actionNamed? t.actionIds action = some id ∧
    t' = { t with default? := some d } ∧ d.actionId = id ∧ d.data = data

end TableOperation

namespace Table

variable {t t' : Table} {g : Program}

theorem changes_addEntry {key : List UInt64} {action : String} {data : List UInt64} {id : Int}
    (hid : g.actionNamed? t.actionIds action = some id)
    (h : t.addEntry key { actionId := id, data } = .ok t') :
    (TableOperation.addEntry key action data).Changes g t t' := by
  simp only [addEntry, bind_eq_ok, pure_eq_ok] at h
  obtain ⟨_, -, _, -, rfl⟩ := h
  exact ⟨id, hid, rfl, Assoc.lookup_set key ({ actionId := id, data } : TableEntry) t.entries⟩

theorem changes_deleteEntry {key : List UInt64} (h : t.deleteEntry key = .ok t') :
    (TableOperation.deleteEntry key).Changes g t t' := by
  simp only [deleteEntry, bind_eq_ok] at h
  obtain ⟨_, -, h⟩ := h
  split at h
  · cases h
    exact ⟨rfl, Assoc.lookup_erase key t.entries⟩
  · cases h

theorem changes_setDefault {action : String} {data : List UInt64} {id : Int}
    (hid : g.actionNamed? t.actionIds action = some id)
    (h : t.setDefault { actionId := id, data } = .ok t') :
    (TableOperation.setDefault action data).Changes g t t' := by
  simp only [setDefault, bind_eq_ok, pure_eq_ok] at h
  obtain ⟨_, -, rfl⟩ := h
  exact ⟨id, _, hid, rfl, rfl, rfl⟩

end Table

namespace Program

/-- A program is another one but for one table. -/
structure ChangesTable (g : Program) (P T : String) (R : Table → Table → Prop) (g' : Program) :
    Prop where
  frame : g' = { g with pipelines := g'.pipelines }
  pipelines : ∀ Q, Q ≠ P → g'.pipeline? Q = g.pipeline? Q
  pipeline : ∃ p p', g.pipeline? P = some p ∧ g'.pipeline? P = some p' ∧
    p' = { p with slots := p'.slots }
  nodes : ∀ N, N ≠ T → g'.node? P N = g.node? P N
  table : ∃ t t', g.node? P T = some (.table t) ∧ g'.node? P T = some (.table t') ∧ R t t'

/-- A table is put in the place of another. -/
theorem Follows.changesTable {g : Program} {log : Log} (h : g.Follows log) {P T : String}
    {p : Pipeline} {t t' : Table} {R : Table → Table → Prop} (hp : g.pipeline? P = some p)
    (ht : p.table? T = some t) (hr : R t t') :
    g.ChangesTable P T R (g.setPipeline P (p.modifyTable T fun _ => t')) := by
  obtain ⟨seat, hseat⟩ := h.get hp
  have hidentity : (p.modifyTable T fun _ => t').identity = p.identity :=
    Pipeline.identity_modifyNode T _
  have hset := pipeline?_setPipeline hp (congrArg Identity.name hidentity)
  have hnode (N : String) := node?_setPipeline hp hidentity rfl P N
  have htable := Pipeline.node?_of_table? ht
  refine ⟨rfl, fun Q hQ => ?_, ⟨p, p.modifyTable T fun _ => t', hp, ?_, ?_⟩, fun N hN => ?_,
    t, t', ?_, ?_, hr⟩
  · rw [hset, if_neg hQ]
  · rw [hset, if_pos rfl]
  · rw [Pipeline.modifyTable, Pipeline.modifyNode]
    split <;> rfl
  · rw [hnode, if_pos rfl, Pipeline.modifyTable, hseat.indexed.node?_modifyNode, if_neg hN,
      node?_eq hp]
  · rw [node?_eq hp, htable]
  · rw [hnode, if_pos rfl, Pipeline.modifyTable, hseat.indexed.node?_modifyNode, if_pos rfl, htable]
    rfl

end Program

namespace Switch

variable {w w' : Switch} {cxt : Nat} {pipeline table : String}

theorem tableAction_eq_ok {g : Program} {t : Table} {action : String} {id : Int} :
    tableAction g t action = .ok id ↔ g.actionNamed? t.actionIds action = some id := by
  rw [tableAction]
  cases g.actionNamed? t.actionIds action with
  | none => exact ⟨nofun, nofun⟩
  | some i => rw [Except.ok.injEq, Option.some.injEq]

/-- Every operation is an edit of its table that makes of it what it says. -/
theorem exists_edit (w : Switch) (cxt : Nat) (pipeline table : String) (op : TableOperation) :
    ∃ edit, op.run w cxt pipeline table = w.editTable cxt pipeline table edit ∧
      ∀ g t t', edit g t = .ok t' → op.Changes g t t' := by
  cases op with
  | addEntry key action data =>
    refine ⟨fun g t => do
      let actionId ← tableAction g t action
      (t.addEntry key { actionId, data }).mapError .entry, rfl, fun g t t' hedit => ?_⟩
    obtain ⟨id, hid, hadd⟩ := bind_eq_ok.mp hedit
    exact Table.changes_addEntry (tableAction_eq_ok.mp hid) (mapError_eq_ok.mp hadd)
  | deleteEntry key =>
    exact ⟨_, rfl, fun g t t' hedit => Table.changes_deleteEntry (mapError_eq_ok.mp hedit)⟩
  | setDefault action data =>
    refine ⟨fun g t => do
      let actionId ← tableAction g t action
      (t.setDefault { actionId, data }).mapError .entry, rfl, fun g t t' hedit => ?_⟩
    obtain ⟨id, hid, hset⟩ := bind_eq_ok.mp hedit
    exact Table.changes_setDefault (tableAction_eq_ok.mp hid) (mapError_eq_ok.mp hset)

/-- An operation that succeeds changes what it says in the table of the active program. -/
theorem changesTable_run
    (hw : ∀ c, w.contexts[cxt]? = some c → ∃ log, c.active.program.Follows log)
    {op : TableOperation} (h : op.run w cxt pipeline table = .ok w') :
    w'.store = w.store ∧ (∀ i, i ≠ cxt → w'.contexts[i]? = w.contexts[i]?) ∧
      ∃ c c', w.contexts[cxt]? = some c ∧ w'.contexts[cxt]? = some c' ∧ c'.stats = c.stats ∧
        c'.active.number = c.active.number ∧ c.active.program.ChangesTable pipeline table
          (fun t t' => op.Changes c.active.program t t') c'.active.program := by
  obtain ⟨edit, hrun, hedit⟩ := exists_edit w cxt pipeline table op
  rw [hrun] at h
  obtain ⟨c, p, t, t', hc, hp, ht, ht', rfl⟩ := editTable_ok h
  obtain ⟨log, hlog⟩ := hw c hc
  have hchanges : c.active.program.ChangesTable pipeline table
      (fun t t' => op.Changes c.active.program t t')
      (c.active.program.setPipeline pipeline (p.modifyTable table fun _ => t')) :=
    hlog.changesTable hp ht (hedit _ t t' ht')
  generalize c.active.program.setPipeline pipeline (p.modifyTable table fun _ => t') = g'
    at hchanges
  refine ⟨rfl, fun i hi => List.getElem?_modify_ne _ _ hi.symm, c,
    { c with active := { c.active with program := g' } }, hc, ?_, rfl, rfl, hchanges⟩
  rw [setActive, List.getElem?_modify_eq, hc]
  rfl

end Switch

namespace History

/-- A plan that succeeds publishes what its commands have made of the program of the context. -/
theorem AllReached.exists_session {h : History} (ht : h.AllReached) {cxt : Nat}
    {document plan : FileContent} {w : Switch}
    (happly : h.switch.applyPlan cxt document plan = (.success, w)) :
    ∃ (c : Context) (start s : Session), h.switch.contexts[cxt]? = some c ∧
      w.contexts[cxt]? =
        some (c.publish (s.candidate.commitArrays s.store).1 plan.commandCount) ∧
      start.candidate = c.active.program ∧ start.Wired ∧
      plan.commands.foldlM Session.apply start = .ok s := by
  obtain ⟨c, donor, s₀, s, hc, -, hrun, rfl⟩ := Switch.applyPlan_success happly
  refine ⟨c, _, s, hc, ?_, rfl, (ht.active hc).wired h.switch.store donor, hrun⟩
  rw [List.getElem?_modify_eq, hc]
  rfl

/-- Whatever has happened to a switch:

* a table that is there before a plan that succeeds, and that no command of the plan deletes, is
  there afterwards with its match type, its key fields, its action ids, its default entry and its
  entries, and as long as no action has the largest id, the ids lead to the same actions; a table
  that the plan deletes and inserts again has no entries;
* an operation on a table is refused and changes nothing, or it changes the entries or the default
  entry of that table as it says, and nothing else. -/
theorem tables_keep_state (n : Nat) (events : List Event) :
    let h := (start n).after events
    (∀ cxt document plan w', h.switch.applyPlan cxt document plan = (.success, w') →
      ∃ c c', h.switch.contexts[cxt]? = some c ∧ w'.contexts[cxt]? = some c' ∧
        ∀ P N,
          (∀ t, c.active.program.node? P N = some (.table t) →
            ¬Session.Deletes plan.commands (.node P N) →
            ∃ t', c'.active.program.node? P N = some (.table t') ∧ t.SameState t' ∧
              (c'.active.program.actions.BelowMax → ∀ id ∈ t.actionIds,
                ∃ a, c.active.program.action? id = some a ∧
                  c'.active.program.action? id = some a)) ∧
          ∀ t', c'.active.program.node? P N = some (.table t') →
            Session.Deletes plan.commands (.node P N) → t'.entries = []) ∧
    ∀ cxt P T (op : TableOperation),
      (∃ e, op.run h.switch cxt P T = .error e ∧ h.apply (op.event cxt P T) = h) ∨
      ∃ w', op.run h.switch cxt P T = .ok w' ∧
        h.apply (op.event cxt P T) = { h with switch := w' } ∧ w'.store = h.switch.store ∧
        (∀ i, i ≠ cxt → w'.contexts[i]? = h.switch.contexts[i]?) ∧
        ∃ c c', h.switch.contexts[cxt]? = some c ∧ w'.contexts[cxt]? = some c' ∧
          c'.stats = c.stats ∧ c'.active.number = c.active.number ∧
          c.active.program.ChangesTable P T (fun t t' => op.Changes c.active.program t t')
            c'.active.program := by
  intro h
  have ht : h.AllReached := fun _ hg => reached_after n events hg
  refine ⟨fun cxt document plan w' happly => ?_, fun cxt P T op => ?_⟩
  · obtain ⟨c, start, s, hc, hc', hstart, hwired, hrun⟩ := ht.exists_session happly
    have hcarries := Session.carries_foldlM hwired hrun
    rw [hstart] at hcarries
    refine ⟨c, _, hc, hc', fun P N => ⟨fun t htable hdeletes => ?_, fun t' ht' hdeletes => ?_⟩⟩
    · obtain ⟨n', hn', hbody⟩ := hcarries.node P N _ hdeletes htable
      obtain ⟨t', rfl, hstate⟩ := hbody.table
      refine ⟨t', hn', hstate, fun hmax id hid => ?_⟩
      obtain ⟨a, ha⟩ := (ht.active hc).exists_action htable hid
      exact ⟨a, ha, (hcarries.action hmax).2 id a ha⟩
    -- a table whose name the plan deletes can only be there because a command inserted it
    · rcases Session.node?_origin hwired hrun ht' with
        ⟨m, -, -, hkept⟩ | ⟨command, -, -, m, hbrings, hbody⟩
      · obtain ⟨command, hcommand, hdel⟩ := hdeletes
        exact absurd hdel (hkept command hcommand).2
      · exact hbrings.entries hbody
  · have hfollows : ∀ c, h.switch.contexts[cxt]? = some c →
        ∃ log, c.active.program.Follows log := by
      intro c hc
      obtain ⟨log, hlog⟩ := (ht.active hc).traced
      exact ⟨log, hlog.follows⟩
    have hevent : ∀ x, op.run h.switch cxt P T = x →
        h.apply (op.event cxt P T) = h.update x := by
      rintro _ rfl
      cases op <;> rfl
    cases hrun : op.run h.switch cxt P T with
    | error e => exact Or.inl ⟨e, rfl, hevent _ hrun⟩
    | ok w' =>
      refine Or.inr ⟨w', rfl, hevent _ hrun, ?_⟩
      exact Switch.changesTable_run hfollows hrun

/-- A document with two tables and an action. -/
def tablesDocument : FileContent :=
  .ofText ("\x7b\"actions\":[\x7b\"name\":\"x\",\"id\":4\x7d]," ++
    "\"pipelines\":[\x7b\"name\":\"p\",\"id\":0,\"tables\":[" ++
    "\x7b\"name\":\"a\",\"id\":0,\"action_ids\":[4]\x7d," ++
    "\x7b\"name\":\"b\",\"id\":1,\"action_ids\":[4]\x7d]\x7d]\x7d")

/-- A plan that deletes a table and inserts it again. -/
def reinsertingPlan : FileContent := .ofText "delete tabl p old_b\ninsert tabl p new_b\n"

/-- Both tables get an entry. -/
def fillingEvents : List Event :=
  [.load 0 tablesDocument, .addEntry 0 "p" "a" [] "x" [], .addEntry 0 "p" "b" [] "x" []]

/-- The entries of a table of the first context. -/
def tableEntries? (w : Switch) (table : String) : Option (List (List UInt64 × TableEntry)) :=
  w.contexts[0]?.bind fun c => (c.active.program.node? "p" table).bind fun n =>
    n.table?.map Table.entries

theorem exists_of_tableEntries? {w : Switch} {table : String}
    {entries : List (List UInt64 × TableEntry)} (h : tableEntries? w table = some entries) :
    ∃ c t, w.contexts[0]? = some c ∧ c.active.program.node? "p" table = some (.table t) ∧
      t.entries = entries := by
  obtain ⟨c, hc, hnode⟩ := Option.bind_eq_some_iff.mp h
  obtain ⟨n, hn, htable⟩ := Option.bind_eq_some_iff.mp hnode
  obtain ⟨t, ht, hentries⟩ := Option.map_eq_some_iff.mp htable
  exact ⟨c, t, hc, Node.eq_table ht ▸ hn, hentries⟩

/-- One table keeps its entry, and the one that is inserted again has lost it. -/
theorem reinserted_table_is_empty :
    ∃ w' c', ∃ t t' b' : Table, ((start 1).after fillingEvents).switch.applyPlan 0 tablesDocument
        reinsertingPlan = (.success, w') ∧ w'.contexts[0]? = some c' ∧
      t.entries = [([], ⟨4, []⟩)] ∧ t.SameState t' ∧ b'.entries = [] ∧
      c'.active.program.node? "p" "a" = some (.table t') ∧
      c'.active.program.node? "p" "b" = some (.table b') := by
  have hrun : (tableEntries? ((start 1).after fillingEvents).switch "a",
      (((start 1).after fillingEvents).switch.applyPlan 0 tablesDocument reinsertingPlan).1,
      (tableEntries? (((start 1).after fillingEvents).switch.applyPlan 0 tablesDocument
        reinsertingPlan).2 "b").isSome) = (some [([], ⟨4, []⟩)], .success, true) := by
    decide +kernel
  have hcommands : reinsertingPlan.commands =
      [.deleteTable "p" (.old "b"), .insertTable "p" "b"] := by decide +kernel
  generalize happly : ((start 1).after fillingEvents).switch.applyPlan 0 tablesDocument
    reinsertingPlan = x at *
  obtain ⟨code, w'⟩ := x
  obtain ⟨hbefore, hresult⟩ := Prod.mk.inj hrun
  obtain ⟨rfl, hafter⟩ := Prod.mk.inj hresult
  obtain ⟨c, t, hc, ht, hentries⟩ := exists_of_tableEntries? hbefore
  obtain ⟨_, hb⟩ := Option.isSome_iff_exists.mp hafter
  obtain ⟨c', b', hc', hb', -⟩ := exists_of_tableEntries? hb
  obtain ⟨c₀, c₁, hc₀, hc₁, hkeep⟩ := (tables_keep_state 1 fillingEvents).1 0 _ _ _ happly
  obtain rfl := Option.some.inj (hc₀.symm.trans hc)
  obtain rfl := Option.some.inj (hc₁.symm.trans hc')
  have hdeletes : Session.Deletes reinsertingPlan.commands (.node "p" "b") :=
    ⟨.deleteTable "p" (.old "b"), by rw [hcommands]; exact List.mem_cons_self, rfl⟩
  have hkept : ¬Session.Deletes reinsertingPlan.commands (.node "p" "a") := by
    rintro ⟨command, hmem, hdel⟩
    rw [hcommands] at hmem
    rcases List.mem_pair.mp hmem with rfl | rfl
    · exact absurd hdel (by decide)
    · exact absurd hdel (by decide)
  obtain ⟨t', ht', hstate, -⟩ := (hkeep "p" "a").1 t ht hkept
  exact ⟨w', c₁, t, t', b', rfl, hc', hentries, hstate, (hkeep "p" "b").2 b' hb' hdeletes,
    ht', hb'⟩

end History

end LiveSwitch
