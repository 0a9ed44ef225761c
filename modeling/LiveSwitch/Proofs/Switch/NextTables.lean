import LiveSwitch.Proofs.Document.Determined
import LiveSwitch.Proofs.Document.NextTables
import LiveSwitch.Proofs.Switch.Defaults
import LiveSwitch.Proofs.Switch.Revisions

/-!
# Edges of tables in the document

An edge of a table that is set to a node shows in one field of the document, unless a later edge of
the table hides it: then the document stays as it is.  Only the edges of actions can be hidden.  A
plan names an action, and of several actions of that name in its table it means the first one,
whereas the document shows the edge of the last one.  A table from a document has an edge for one of
them only, a table from a donor has edges for all.

## Main results

* `Table.not_overtaken_of_loaded` — in a table from a document no action hides another one.
* `Program.Listed.revise_table` — a change of a table is a change of its record.
* `Program.table_edge_shown` — what setting an edge of a table changes in the document.
* `Program.hidden_edge_not_shown` — a table with two actions of one name.
-/

namespace LiveSwitch

/-- The edges of a table from a document stand at the first actions of their names, so no other
action hides the one that a plan means. -/
theorem Table.not_overtaken_of_loaded {g : Program} {t : Table} (hn : (Node.table t).Loaded g)
    (hk : t.Keyed) {id : Int} {name : String} (hid : g.actionNamed? t.actionIds name = some id) :
    ¬t.Overtaken g.actions id name := by
  rintro ⟨x, hx, hlt, b, hb, rfl⟩
  have hnext : (Node.table t).edgeAt? (.action x.1) = some x.2 := Assoc.lookup_of_mem hk hx
  obtain ⟨key, hkey⟩ := hn.action x.1 x.2 hnext
  obtain ⟨b', hb', rfl⟩ := Loader.nextPort?_action hkey
  obtain rfl := Option.some.inj (hb.symm.trans hb')
  have hport : Loader.nextPort? g t.actionIds b.name = some (.action x.1) := hkey
  rw [Loader.nextPort?, hid] at hport
  split at hport
  · cases hport
  · split at hport
    · cases hport
    · cases hport
      exact lt_irrefl _ hlt

namespace Program

variable {g g' : Program} {pipeline name : String} {p p' : Pipeline} {log : Log}

/-- An edge of a table is changed. -/
theorem Listed.revise_table (h : g.Listed log) (hp : g.pipeline? pipeline = some p) {t t' : Table}
    (ht : p.table? name = some t) {q : Port} {e : Edge}
    (hset : (Node.table t).setEdge q e = .table t')
    (hp' : p' = p.modifyNode name (Node.setEdge q e))
    {f : TableRecord → TableRecord}
    (hf : t'.toRecord p g.actions = f (t.toRecord p g.actions)) :
    g.records.changePipeline pipeline (·.changeTable name f) =
      some (g.setPipeline pipeline p').records := by
  obtain ⟨hmem, -⟩ := ObjectMap.mem_of_get? hp
  obtain ⟨seat, hseat⟩ := h.follows p hmem
  obtain ⟨hts, hname⟩ := hseat.indexed.mem_of_table? ht
  have hidentity : t'.identity = t.identity := by
    have heq := Node.identity_setEdge q e (.table t)
    rw [hset] at heq
    exact heq
  obtain ⟨hconditionals, htables⟩ :=
    hseat.indexed.nodes_changeTable ht hset (congrArg Identity.id hidentity)
  rw [← hp'] at hconditionals htables
  have hnames (e : Edge) : p'.nodeName? e = p.nodeName? e := by
    rw [hp', hseat.nodeName?_modifyNode name (Node.name_setEdge q _)]
  have hrenamed : p.Renamed id p' := hp' ▸ hseat.renamed_modifyNode name (Node.name_setEdge q e)
  have hrecord : t'.toRecord p' g.actions = f (t.toRecord p g.actions) :=
    (Table.toRecord_congr hnames g.actions t').trans hf
  subst hname
  refine records_setPipeline h.pipelines hp ?_
  exact hrenamed.toRecord_changeTable (fun t ht => h.keyed p hmem _ ht t rfl)
    hseat.indexed.nodup_names.1 hts htables hconditionals hrecord

/-- An edge of a table that is set, in the middle of any plan, shows in its own field of the
document, and nothing else changes; unless it is hidden, and then nothing changes at all. -/
theorem table_edge_shown {g₀ donor g g' : Program} {s₀ s : Store} {l : List Edit}
    (h₀ : g₀.Reached) (hrun : l.foldlM (Edit.run donor) (g₀, s₀) = .ok (g, s))
    {slot : TableSlot} {target? : Option String}
    (hstep : g.setTableNext pipeline name slot target? = .ok g') :
    g.document = g.records.encode ∧
      ∃ t q, (g.pipeline? pipeline).bind (·.table? name) = some t ∧ g.portOf? t slot = some q ∧
        (¬t.Hidden g.actions q → ∃ r, g.records.changePipeline pipeline
          (·.changeTable name (·.setNext slot target?)) = some r ∧ g'.document = r.encode) ∧
        (t.Hidden g.actions q → g'.document = g.document) := by
  obtain ⟨⟨log, htraced⟩, -, hallKeyed⟩ := h₀.foldlM hrun
  have h : g.Listed log := ⟨htraced.pipelinesConsistent, htraced.follows, hallKeyed⟩
  obtain ⟨p, e, t, q, hp, he, ht, hq, -, rfl⟩ := setTableNext_ok hstep
  obtain ⟨hmem, -⟩ := ObjectMap.mem_of_get? hp
  obtain ⟨seat, hseat⟩ := h.follows p hmem
  have hkeyed : t.Keyed := h.keyed p hmem _ (Pipeline.mem_nodes_of_table? ht) t rfl
  obtain ⟨t', hset, -, hshown, hhidden⟩ := Table.toRecord_setEdge hq hkeyed e p
  rw [hseat.nodeName?_edgeTo he] at hshown
  refine ⟨g.document_eq, t, q, ?_, hq, fun hvisible => ?_, fun hhides => ?_⟩
  · rw [hp]
    exact ht
  · exact ⟨_, h.revise_table hp ht hset rfl (hshown hvisible), document_eq _⟩
  · have hsame := h.revise_table (f := id) hp ht hset rfl (hhidden hhides)
    rw [document_eq, document_eq, Records.eq_of_changeTable_id hsame]

/-- A table with two actions. -/
def namedDocument (first second : String) : Json.Value :=
  .object [("actions", .array
      [Mutation.actionRecord 0 first [], Mutation.actionRecord 1 second []]),
    ("pipelines", .array [.object [("id", .ofNat 0), ("name", .string "p"),
      ("tables", .array [.object [("action_ids", .array [.ofNat 0, .ofNat 1]), ("id", .ofNat 0),
        ("name", .string "t")]])]])]

/-- The next nodes that stand in the record of the table. -/
def shownNext? (g : Program) : Option Json.Object :=
  ((g.pipeline? "p").bind fun p => (p.table? "t").map fun t => t.nextTables p g.actions)

/-- A table and a new edge of its action `a`, which leads to the table itself. -/
theorem exists_setTableNext_of_any (second : String) {P : Program → Program → Bool}
    (h : (ofDocument {} Mutation.forwardDocument).toOption.any (fun x =>
      (ofDocument {} (namedDocument "a" second)).toOption.any fun y =>
        (x.1.insertTable y.1 "p" "t").toOption.any fun g =>
          (g.setTableNext "p" "t" (.action "a") (some "t")).toOption.any (P g)) = true) :
    ∃ g₀ s₀ donor s g g', ofDocument {} Mutation.forwardDocument = .ok (g₀, s₀) ∧
      ofDocument {} (namedDocument "a" second) = .ok (donor, s) ∧
      [Edit.insertTable "p" "t"].foldlM (Edit.run donor) (g₀, s₀) = .ok (g, s₀) ∧
      g.setTableNext "p" "t" (.action "a") (some "t") = .ok g' ∧ P g g' = true := by
  obtain ⟨g₀, s₀, donor, s, g, hg₀, hdonor, hinsert, h⟩ := Mutation.exists_insertTable_of_any
    (P := fun _ _ g => (g.setTableNext "p" "t" (.action "a") (some "t")).toOption.any (P g)) h
  cases hset : g.setTableNext "p" "t" (.action "a") (some "t") with
  | error e =>
    rw [hset] at h
    cases h
  | ok g' =>
    rw [hset] at h
    have hrun : (Edit.insertTable "p" "t").run donor (g₀, s₀) = .ok (g, s₀) :=
      pair_eq_ok.mpr ⟨hinsert, rfl⟩
    exact ⟨g₀, s₀, donor, s, g, g', hg₀, hdonor,
      foldlM_cons_eq_ok.mpr ⟨_, hrun, foldlM_nil_eq_ok.mpr rfl⟩, hset, h⟩

/-- With another name behind it, the edge shows. -/
theorem visible_edge_shown : ∃ g₀ s₀ donor s g g' r,
    ofDocument {} Mutation.forwardDocument = .ok (g₀, s₀) ∧
    ofDocument {} (namedDocument "a" "b") = .ok (donor, s) ∧
    [Edit.insertTable "p" "t"].foldlM (Edit.run donor) (g₀, s₀) = .ok (g, s₀) ∧
    g.setTableNext "p" "t" (.action "a") (some "t") = .ok g' ∧
    g.records.changePipeline "p" (·.changeTable "t" (·.setNext (.action "a") (some "t"))) =
      some r ∧ g'.document = r.encode ∧
    shownNext? g' = some [("a", .string "t"), ("b", .null)] := by
  obtain ⟨g₀, s₀, donor, s, g, g', hg₀, hdonor, hrun, hstep, hfacts⟩ :=
    exists_setTableNext_of_any "b" (P := fun g g' => g'.document ≠ g.document ∧
      shownNext? g' = some [("a", .string "t"), ("b", .null)]) (by decide +kernel)
  obtain ⟨hchanged, hnext⟩ := of_decide_eq_true hfacts
  obtain ⟨-, t, q, -, -, hshown, hhidden⟩ := table_edge_shown (.load hg₀) hrun hstep
  obtain ⟨r, hr, hdocument⟩ := hshown fun hhides => hchanged (hhidden hhides)
  exact ⟨g₀, s₀, donor, s, g, g', r, hg₀, hdonor, hrun, hstep, hr, hdocument, hnext⟩

/-- With the same name behind it, the edge does not show: the field stays null. -/
theorem hidden_edge_not_shown : ∃ g₀ s₀ donor s g g',
    ofDocument {} Mutation.forwardDocument = .ok (g₀, s₀) ∧
    ofDocument {} (namedDocument "a" "a") = .ok (donor, s) ∧
    [Edit.insertTable "p" "t"].foldlM (Edit.run donor) (g₀, s₀) = .ok (g, s₀) ∧
    g.setTableNext "p" "t" (.action "a") (some "t") = .ok g' ∧
    shownNext? g' = some [("a", .null)] ∧ g'.document = g.document := by
  obtain ⟨g₀, s₀, donor, s, g, g', hg₀, hdonor, hrun, hstep, hfacts⟩ :=
    exists_setTableNext_of_any "a" (P := fun g g' =>
      shownNext? g' = some [("a", .null)] ∧ g'.document = g.document) (by decide +kernel)
  obtain ⟨hnext, hsame⟩ := of_decide_eq_true hfacts
  exact ⟨g₀, s₀, donor, s, g, g', hg₀, hdonor, hrun, hstep, hnext, hsame⟩

end Program

end LiveSwitch
