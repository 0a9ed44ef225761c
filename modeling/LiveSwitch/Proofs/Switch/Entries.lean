import LiveSwitch.Document.Builder
import LiveSwitch.Proofs.Document.Entries
import LiveSwitch.Proofs.Program.Nodes
import LiveSwitch.Proofs.Switch.Copies
import LiveSwitch.Proofs.Switch.Edges

/-!
# The entries of a program

Whatever was done to a program before, be it by plans or by mutations one at a time, the entry of
an object agrees with the document as a whole, and so do the numbers of objects.  The definitions of
conditionals that mutations bring along are such as documents give them: what a definition says
besides the known fields does not say once more whether it is a flex node.

## Main definitions

* `Node.Documented`, `Mutation.Documented` — nodes and mutations with definitions from documents.
* `Program.Documented` — the programs that can be built with such mutations.
* `Program.WellDocumented` — what such mutations keep.
* `Mutation.Deletes` — an object is deleted.

## Main results

* `Program.Reached.documented` — the programs that a switch can come to run are among them.
* `Program.Documented.legible` — what the agreement rests on.
* `Program.views_agree` — single entries, the document and the numbers of objects agree.
* `Program.lost_name_has_entry` — an entry that a name leads to and the document does not have.
-/

namespace LiveSwitch

open Json Document

variable {g g' donor : Program} {s s' : Store}

/-- What a conditional says besides the known fields has none of their names. -/
def Node.Documented : Node → Prop
  | .conditional c => Object.Free (Identity.keys ++ ConditionalRecord.keys) c.extra
  | .table _ => True

/-- The definition of a conditional that a mutation brings along is as documents give it. -/
def Mutation.Documented : Mutation → Prop
  | .insertConditional _ _ (some c) => (Node.conditional c).Documented
  | _ => True

/-- The programs that can be built with definitions as documents give them: the empty one, the
loaded ones, and what mutations leave behind, commits make and changes of table entries give. -/
inductive Program.Documented : Program → Prop
  | start : Documented {}
  | load {g : Program} {s s' : Store} {v : Value} (h : ofDocument s v = .ok (g, s')) :
    Documented g
  | mutate {g : Program} (h : Documented g) {m : Mutation} (hm : m.Documented) (s : Store) :
    Documented (m.inPlace.after (g, s)).1
  | commit {g : Program} (h : Documented g) (s : Store) : Documented (g.commitArrays s).1
  | entry {g : Program} {pipeline table : String} {p : Pipeline} {t t' : Table}
    (h : Documented g) (hp : g.pipeline? pipeline = some p) (ht : p.table? table = some t)
    (hchange : t.EntryChange t') :
    Documented (g.setPipeline pipeline (p.modifyTable table fun _ => t'))

/-- A mutation deletes the object of a name: a node of a pipeline, whatever it is looked up as, or a
register array. -/
def Mutation.Deletes (kind : ObjectKind) (pipeline? : Option String) (name : String) :
    Mutation → Prop
  | .deleteConditional P n | .deleteTable P n =>
    kind ∈ [.node, .conditional, .flex, .table] ∧ pipeline? = some P ∧ n = name
  | .deleteArray n => kind = .registerArray ∧ n = name
  | _ => False

/-! ### Nodes -/

theorem Node.Documented.setEdge {n : Node} (h : n.Documented) (q : Port) (e : Edge) :
    (n.setEdge q e).Documented := by
  cases n with
  | table t => cases q <;> trivial
  | conditional c =>
    cases q with
    | branch b => cases b <;> exact h
    | action | hit | miss | base => exact h

/-! ### Programs with definitions from documents -/

/-- What a loaded program has: maps of unique names, and conditionals with their definitions from
its document. -/
structure Program.WellDocumented (g : Program) : Prop where
  pipelines : g.pipelines.Consistent
  arrays : g.arrays.Consistent
  nodes : g.AllNodes Node.Documented

theorem Program.Sound.wellDocumented (h : g.Sound) : g.WellDocumented where
  pipelines := h.pipelinesConsistent
  arrays := h.arraysConsistent
  nodes p hp n hn := by
    have hsound := (h.pipelines p hp).nodes n hn
    cases n with
    | conditional c => exact (show c.Sound from hsound).record.extra
    | table t => trivial

open Program in
/-- A mutation keeps the names of pipelines and arrays, and its new nodes have definitions from
documents. -/
theorem Mutation.wellDocumented_attempt (h : g.WellDocumented) {m : Mutation} (hm : m.Documented)
    (hrun : m.attempt g s = .ok (g', s')) : g'.WellDocumented := by
  obtain ⟨pipeline, name, definition?, rfl⟩ | ⟨donor, e, hne, hedit⟩ := m.exists_edit
  · obtain ⟨_, hg, heq⟩ := map_eq_ok.mp hrun
    cases heq
    obtain ⟨p, d, r, p', hp, rfl, hins, rfl⟩ := insertConditional_ok hg
    have hn : (Node.conditional (d.instantiate name g.conditionalIds.next)).Documented := hm
    exact ⟨consistent_setPipeline h.pipelines hp (Pipeline.identity_insertNode hins), h.arrays,
      h.nodes.setPipeline ((h.nodes.get hp).insertNode hn hins)⟩
  · rw [hedit] at hrun
    refine ⟨Edit.consistent_pipelines_run h.pipelines hrun, Edit.consistent_run h.arrays hrun, ?_⟩
    refine Edit.allNodes_run_of (fun n hn => ?_) (fun q e hn => hn.setEdge q e) h.nodes hrun
    cases e with
    | insertConditional => exact absurd rfl (hne _ _)
    | insertFlex =>
      obtain ⟨_, _, _, rfl⟩ := hn
      exact Object.free_nil _
    | insertTable =>
      obtain ⟨_, _, _, -, rfl⟩ := hn
      trivial
    | _ => cases hn

namespace Program

namespace Documented

theorem built (h : g.Documented) : g.Built := by
  induction h with
  | start => exact .start
  | load h => exact .load h
  | mutate _ _ s ih => exact ih.mutate _ s
  | commit _ s ih => exact ih.commit s
  | entry _ hp ht hchange ih => exact ih.entry hp ht hchange

theorem wellDocumented (h : g.Documented) : g.WellDocumented := by
  induction h with
  | start => exact ⟨.empty, .empty, nofun⟩
  | load h => exact (sound_ofDocument h).wellDocumented
  | @mutate g h m hm s ih =>
    rcases m.after_cases ih.arrays s with hrun | ⟨e, g', -, heq, rfl | hpart⟩
    · exact Mutation.wellDocumented_attempt ih hm hrun
    · rw [heq]
      exact ih
    · rw [heq]
      obtain ⟨donor, hcopied⟩ | ⟨name, rfl⟩ := hpart.cases
      · obtain ⟨actions, calculations, rfl⟩ := hcopied.frame
        exact ⟨ih.pipelines, ih.arrays, ih.nodes⟩
      · exact ⟨ih.pipelines, ih.arrays.remove name, ih.nodes⟩
  | commit _ s ih => exact ⟨ih.pipelines, consistent_commitArrays ih.arrays s, ih.nodes⟩
  | entry _ hp _ _ ih =>
    refine ⟨consistent_setPipeline ih.pipelines hp (Pipeline.identity_modifyNode _ _), ih.arrays,
      ih.nodes.setPipeline ((ih.nodes.get hp).modifyNode _ fun n hn => ?_)⟩
    cases n with
    | conditional _ => exact ih.nodes.get hp _ hn
    | table _ => trivial

theorem legible (h : g.Documented) : g.Legible where
  pipelines := h.wellDocumented.pipelines.names
  arrays := h.wellDocumented.arrays
  calculations := h.built.coherent.calculations.names
  graphs := h.built.coherent.graphs
  extras p hp _ hc := h.wellDocumented.nodes p hp _ (Pipeline.mem_conditionals.mp hc)

/-- What a mutation makes of a documented program is documented. -/
theorem attempt (h : g.Documented) {m : Mutation} (hm : m.Documented)
    (hrun : m.attempt g s = .ok (g', s')) : g'.Documented := by
  have hafter := h.mutate hm s
  rcases m.after_cases h.wellDocumented.arrays s with heq | ⟨_, _, heq, -⟩
  · rw [hrun, Except.ok.injEq] at heq
    rwa [← heq] at hafter
  · rw [hrun] at heq
    cases heq

/-- So is what an edit of a plan makes of it, with a loaded donor. -/
theorem edit (h : g.Documented) (hdonor : donor.Sound) {e : Edit}
    (hrun : e.run donor (g, s) = .ok (g', s')) : g'.Documented := by
  refine h.attempt ?_ ((e.run_eq_attempt donor g s).symm.trans hrun)
  cases e with
  | insertConditional pipeline name =>
    show Mutation.Documented (.insertConditional pipeline name _)
    cases hd : (donor.pipeline? pipeline).bind (·.conditional? name) with
    | none => trivial
    | some d =>
      obtain ⟨p, hp, hc⟩ := Option.bind_eq_some_iff.mp hd
      exact hdonor.wellDocumented.nodes.get hp _
        (Pipeline.mem_nodes_of_node? (Pipeline.node?_of_conditional? hc))
  | _ => trivial

end Documented

/-- The programs that a switch can come to run are documented. -/
theorem Reached.documented (h : g.Reached) : g.Documented := by
  induction h with
  | start => exact .start
  | load h => exact .load h
  | plan _ hdonor _ hrun ih =>
    refine .commit ?_ _
    refine foldlM_induction (P := fun x : Program × Store => x.1.Documented) ?_ ih hrun
    exact fun e _ _ _ hg hstep => hg.edit (sound_ofDocument hdonor) hstep
  | entry _ hp ht hchange ih => exact ih.entry hp ht hchange

/-! ### Deletions -/

theorem entry?_removeNode {P n : String} {p : Pipeline} (hp : g.pipeline? P = some p)
    {kind : ObjectKind} (hkind : kind ∈ [.node, .conditional, .flex, .table]) :
    Program.entry? (g.setPipeline P (p.removeNode n)) kind (some P) n = none := by
  have hpipeline : (g.setPipeline P (p.removeNode n)).pipeline? P = some (p.removeNode n) := by
    rw [pipeline?_setPipeline hp (congrArg Identity.name (Pipeline.identity_removeNode n)),
      if_pos rfl]
  have hnode : (p.removeNode n).node? n = none := by
    rw [Pipeline.node?, Pipeline.find?_removeNode, if_pos rfl, Option.bind_none]
  have hentry : ((g.setPipeline P (p.removeNode n)).pipeline? P).bind (fun p' =>
      (p'.node? n).bind fun m =>
        Program.nodeEntry? (g.setPipeline P (p.removeNode n)) kind p' m) = none := by
    rw [hpipeline, Option.bind_some, hnode, Option.bind_none]
  cases kind with
  | node | conditional | flex | table => exact hentry
  | pipeline | action | registerArray | calculation => simp at hkind

theorem entry?_deleted (harrays : g.arrays.Consistent) {m : Mutation}
    (hrun : m.attempt g s = .ok (g', s')) {kind : ObjectKind} {pipeline? : Option String}
    {name : String} (hm : m.Deletes kind pipeline? name) :
    g'.entry? kind pipeline? name = none ∧
      (kind = .registerArray → ¬g'.Stray (.array name)) := by
  cases m with
  | deleteConditional P n =>
    obtain ⟨hkind, rfl, rfl⟩ := hm
    obtain ⟨_, hg, heq⟩ := map_eq_ok.mp hrun
    cases heq
    obtain ⟨p, c, hp, -, rfl⟩ := deleteConditional_ok hg
    exact ⟨entry?_removeNode hp hkind, by rintro rfl; simp at hkind⟩
  | deleteTable P n =>
    obtain ⟨hkind, rfl, rfl⟩ := hm
    obtain ⟨_, hg, heq⟩ := map_eq_ok.mp hrun
    cases heq
    obtain ⟨p, t, hp, -, rfl⟩ := deleteTable_ok hg
    exact ⟨entry?_removeNode hp hkind, by rintro rfl; simp at hkind⟩
  | deleteArray n =>
    obtain ⟨rfl, rfl⟩ := hm
    obtain ⟨_, hg, heq⟩ := map_eq_ok.mp hrun
    cases heq
    obtain ⟨a, -, rfl⟩ := deleteArray_ok hg
    obtain ⟨hnone, hstray⟩ := harrays.lookup?_remove_self n
    have hentry : ((g.arrays.remove n).lookup? n).map (·.toRecord.encode) = none := by
      rw [hnone, Option.map_none]
    exact ⟨hentry, fun _ => not_stray_array.mpr hstray⟩
  | _ => cases hm

/-- The entry of an object is the first one of its name in the document, for a node in the entry of
its pipeline, and the only one unless it is an action's; it is there exactly when the document has
such an entry.  Only the name of an array that lost its id to another one, which then is the name of
no entry, leads to the entry of the array that has the id, if there is one.  There are as many
objects of a kind as the document has entries.  A deleted object has neither an entry nor one in the
document. -/
theorem views_agree (h : g.Documented) :
    (∀ kind pipeline? name,
      ((kind = .registerArray → ¬g.Stray (.array name)) →
        g.entry? kind pipeline? name =
          (entriesIn kind pipeline? g.document).find? (Value.isNamed name)) ∧
        (kind ≠ .action → ∀ x ∈ entriesIn kind pipeline? g.document, x.isNamed name →
          g.entry? kind pipeline? name = some x)) ∧
      (∀ pipeline? name id, g.arrays.strays.lookup name = some id →
        g.entry? .registerArray pipeline? name =
            (g.arrays.getById? id).map (·.toRecord.encode) ∧
          ∀ x ∈ entriesIn .registerArray pipeline? g.document, ¬x.isNamed name) ∧
      (∀ kind, g.count kind = (entries kind g.document).length) ∧
      ∀ (m : Mutation) s g' s' kind pipeline? name, m.inPlace.run (g, s) = .ok () (g', s') →
        m.Deletes kind pipeline? name → g'.entry? kind pipeline? name = none ∧
          ∀ x ∈ entriesIn kind pipeline? g'.document, ¬x.isNamed name := by
  refine ⟨fun kind pipeline? name => ⟨fun hname => h.legible.entry?_eq kind pipeline? fun hkind =>
    not_stray_array.mp (hname hkind),
    fun hkind x hx hname => h.legible.entry?_eq_some hkind hx hname⟩,
    fun pipeline? name id => h.legible.entry?_stray, h.legible.count_eq, ?_⟩
  intro m s g' s' kind pipeline? name hrun hdeletes
  have hattempt := (Mutation.run_eq_ok_iff h.wellDocumented.arrays).mp hrun
  obtain ⟨hentry, hstray⟩ := entry?_deleted h.wellDocumented.arrays hattempt hdeletes
  have hm : m.Documented := by
    cases m with
    | deleteConditional | deleteTable | deleteArray => trivial
    | _ => cases hdeletes
  refine ⟨hentry, List.find?_eq_none.mp ?_⟩
  have hlegible := (h.attempt hm hattempt).legible
  rw [← hlegible.entry?_eq _ _ fun hkind => not_stray_array.mp (hstray hkind), hentry]

/-- The entry of a flex node without edges. -/
def flexEntry : Value :=
  .object [("expression", .null), ("false_next", .null), ("flex", .bool true), ("id", .ofNat 0),
    ("name", .string "a"), ("true_next", .null)]

/-- A flex node is found in both ways as long as it is there, and in none once it is deleted. -/
theorem deleted_flex_in_no_view :
    Program.entry? (flexProgram 0 0) .flex (some "p") "a" = some flexEntry ∧
      (entriesIn .flex (some "p") (flexProgram 0 0).document).find? (Value.isNamed "a") =
        some flexEntry ∧ (flexProgram 0 0).count .flex = 1 ∧
      (Mutation.deleteConditional "p" "a").inPlace.run (flexProgram 0 0, {}) =
        .ok () (flexDeleted, {}) ∧
      flexDeleted.entry? .node (some "p") "a" = none ∧
      ∀ x ∈ entriesIn .node (some "p") flexDeleted.document, ¬x.isNamed "a" := by
  have hload : ofDocument {} flexDocument = .ok (flexProgram 0 0, {}) := rfl
  have hdelete : (Mutation.deleteConditional "p" "a").inPlace.run (flexProgram 0 0, {}) =
      .ok () (flexDeleted, {}) := rfl
  have hlisted : entriesIn .flex (some "p") (flexProgram 0 0).document = [flexEntry] := by
    decide +kernel
  have hlength : (entries .flex (flexProgram 0 0).document).length = 1 := by decide +kernel
  obtain ⟨hentries, -, hcount, hgone⟩ := views_agree (.load hload)
  obtain ⟨hfirst, honly⟩ := hentries .flex (some "p") "a"
  have hentry := honly nofun flexEntry (hlisted ▸ List.mem_singleton_self _) (by decide)
  obtain ⟨hnone, hno⟩ := hgone _ _ _ _ .node (some "p") "a" hdelete ⟨by decide, rfl, rfl⟩
  exact ⟨hentry, hfirst nofun ▸ hentry, (hcount .flex).trans hlength, hdelete, hnone, hno⟩

/-- A document with an array of the smallest id and one of the largest id. -/
def outermostDocument : Value :=
  ((DocumentBuilder.empty.array "x" minId 1 8).array "y" maxId 1 8).document

/-- A new array takes the id of the first one, whose name then leads to the entry of the new one. -/
theorem lost_name_has_entry : ∃ g s g' s' entry, ofDocument {} outermostDocument = .ok (g, s) ∧
    (Mutation.insertArray "z" 1 8).inPlace.run (g, s) = .ok () (g', s') ∧
    g'.entry? .registerArray none "x" = some entry ∧ entry.isNamed "z" ∧
    ∀ v ∈ entriesIn .registerArray none g'.document, ¬v.isNamed "x" := by
  have hfacts : (ofDocument {} outermostDocument).toOption.any (fun x =>
      ((Mutation.insertArray "z" 1 8).attempt x.1 x.2).toOption.any fun y =>
        (Option.any (Value.isNamed "z") <| Program.entry? y.1 .registerArray none "x") &&
          (entriesIn .registerArray none y.1.document).all fun v => !v.isNamed "x") = true := by
    decide +kernel
  obtain ⟨⟨g, s⟩, hg, hfacts⟩ := exists_of_any_toOption hfacts
  obtain ⟨⟨g', s'⟩, hattempt, hfacts⟩ := exists_of_any_toOption hfacts
  obtain ⟨hentry, hnone⟩ := Bool.and_eq_true_iff.mp hfacts
  obtain ⟨entry, hentry, hname⟩ := (Option.any_eq_true ..).mp hentry
  refine ⟨g, s, g', s', entry, hg, ?_, hentry, hname, fun v hv => ?_⟩
  · exact (Mutation.run_eq_ok_iff (sound_ofDocument hg).arraysConsistent).mpr hattempt
  · simpa using List.all_eq_true.mp hnone v hv

end Program

end LiveSwitch
