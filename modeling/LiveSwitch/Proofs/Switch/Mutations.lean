import LiveSwitch.Proofs.Program.Carried
import LiveSwitch.Proofs.Program.Ids
import LiveSwitch.Proofs.Program.InPlace
import LiveSwitch.Proofs.Switch.Actions

/-!
# Refused mutations

Whatever was done to a program before, and whatever a mutation is given, either it takes place as
a whole or it is refused and leaves the store as it was.  It then leaves the program as it was, too,
but for two cases, which both need that ids have come round: the copies that come with a table can
get stuck at an id that is in use, and an array can be deleted by a name that leads nowhere any
more.  Programs are loaded or empty at first; then come mutations, refused or not, commits, and
changes of table entries.

## Main definitions

* `Program.Built` — the programs that can be built.
* `Program.Coherent` — what holds of them.

## Main results

* `Program.Built.induct` — what holds of every program that can be built.
* `Mutation.done_or_refused` — what a mutation does, and what it leaves when it is refused.
-/

namespace LiveSwitch

variable {g g' donor : Program} {s s' : Store}

/-- The programs that can be built: the empty one, the loaded ones, and what mutations leave
behind, commits make and changes of table entries give. -/
inductive Program.Built : Program → Prop
  | start : Built {}
  | load {g : Program} {s s' : Store} {v : Json.Value} (h : ofDocument s v = .ok (g, s')) : Built g
  | mutate {g : Program} (h : Built g) (m : Mutation) (s : Store) :
    Built (m.inPlace.after (g, s)).1
  | commit {g : Program} (h : Built g) (s : Store) : Built (g.commitArrays s).1
  | entry {g : Program} {pipeline table : String} {p : Pipeline} {t t' : Table}
    (h : Built g) (hp : g.pipeline? pipeline = some p) (ht : p.table? table = some t)
    (hchange : t.EntryChange t') :
    Built (g.setPipeline pipeline (p.modifyTable table fun _ => t'))

/-! ### What a mutation makes of a program -/

namespace Mutation

/-- A mutation is an edit with some donor, unless it brings the definition of a conditional
along. -/
theorem exists_edit (m : Mutation) :
    (∃ pipeline name definition?, m = insertConditional pipeline name definition?) ∨
      ∃ donor e, (∀ pipeline name, e ≠ .insertConditional pipeline name) ∧
        ∀ g s, m.attempt g s = Edit.run donor (g, s) e := by
  cases m with
  | insertConditional pipeline name definition? => exact Or.inl ⟨_, _, _, rfl⟩
  | insertFlex pipeline name false? true? =>
    exact Or.inr ⟨{}, .insertFlex pipeline name false? true?, nofun, fun _ _ => rfl⟩
  | setConditionalNext pipeline name branch target? =>
    exact Or.inr ⟨{}, .setConditionalNext pipeline name branch target?, nofun, fun _ _ => rfl⟩
  | deleteConditional pipeline name =>
    exact Or.inr ⟨{}, .deleteConditional pipeline name, nofun, fun _ _ => rfl⟩
  | insertTable donor pipeline name =>
    exact Or.inr ⟨donor, .insertTable pipeline name, nofun, fun _ _ => rfl⟩
  | setTableNext pipeline name slot target? =>
    exact Or.inr ⟨{}, .setTableNext pipeline name slot target?, nofun, fun _ _ => rfl⟩
  | deleteTable pipeline name =>
    exact Or.inr ⟨{}, .deleteTable pipeline name, nofun, fun _ _ => rfl⟩
  | insertArray name size bitwidth =>
    exact Or.inr ⟨{}, .insertArray name size bitwidth, nofun, fun _ _ => rfl⟩
  | resizeArray name size => exact Or.inr ⟨{}, .resizeArray name size, nofun, fun _ _ => rfl⟩
  | rewidenArray name bitwidth =>
    exact Or.inr ⟨{}, .rewidenArray name bitwidth, nofun, fun _ _ => rfl⟩
  | deleteArray name => exact Or.inr ⟨{}, .deleteArray name, nofun, fun _ _ => rfl⟩
  | rehashArray r => exact Or.inr ⟨{}, .rehashArray r, nofun, fun _ _ => rfl⟩

/-- What a mutation leaves behind: what its attempt makes, everything as it was, or all but the
program as it was and of this a part. -/
theorem after_cases (hg : g.arrays.Consistent) (m : Mutation) (s : Store) :
    m.attempt g s = .ok (m.inPlace.after (g, s)) ∨
      ∃ e g', m.attempt g s = .error e ∧ m.inPlace.after (g, s) = (g', s) ∧
        (g' = g ∨ m.LeavesPart g e g') := by
  cases hattempt : m.attempt g s with
  | ok state =>
    left
    rw [Mutating.after, (run_eq_ok_iff hg).mpr hattempt]
  | error e =>
    obtain ⟨g', hafter, hpart⟩ := m.after_of_error g hattempt
    exact Or.inr ⟨e, g', rfl, hafter, hpart⟩

/-- A mutation that takes place keeps the arrays consistent. -/
theorem consistent_attempt (h : g.arrays.Consistent) {m : Mutation}
    (hm : m.attempt g s = .ok (g', s')) : g'.arrays.Consistent := by
  obtain ⟨pipeline, name, definition?, rfl⟩ | ⟨donor, e, -, hedit⟩ := m.exists_edit
  · obtain ⟨_, hg, heq⟩ := map_eq_ok.mp hm
    obtain ⟨_, _, _, _, -, -, -, rfl⟩ := Program.insertConditional_ok hg
    cases heq
    exact h
  · rw [hedit] at hm
    exact Edit.consistent_run h hm

/-- No part of a mutation is left as long as ids have not come round: no name of an array is stray,
and the counter of calculations is ahead of them and of the copies. -/
theorem not_leavesPart {m : Mutation} {e : ReconfigError} (hstrays : g.arrays.strays = [])
    (hahead : g.calculations.Ahead) (hmax : ∀ c ∈ g'.calculations.objects, idOf c < maxId) :
    ¬m.LeavesPart g e g' := by
  intro h
  cases m with
  | insertTable donor pipeline name =>
    obtain ⟨hcopied, calculation, -, -, -, hused⟩ := h
    obtain ⟨c, hc⟩ := Option.isSome_iff_exists.mp hused
    obtain ⟨hmem, hid⟩ := ObjectMap.mem_of_getById? hc
    exact (hcopied.ahead hahead hmax).free c hmem hid
  | deleteArray name =>
    obtain ⟨-, hnone, hname, -⟩ := h
    have hsome : (g.array? name).isSome = true :=
      (ObjectMap.contains_eq_isSome hstrays name).symm.trans hname
    rw [hnone] at hsome
    cases hsome
  | _ => exact h

/-- What is left of a refused mutation comes from copies, or lacks a name of an array. -/
theorem LeavesPart.cases {m : Mutation} {e : ReconfigError} (h : m.LeavesPart g e g') :
    (∃ donor, Program.Copied donor g g') ∨
      ∃ name, g' = { g with arrays := g.arrays.remove name } := by
  cases m with
  | insertTable donor pipeline name => exact Or.inl ⟨donor, h.1⟩
  | deleteArray name => exact Or.inr ⟨name, h.2.2.2⟩
  | _ => cases h

end Mutation

namespace Program

/-- The arrays of a built program are consistent. -/
theorem Built.consistent (h : g.Built) : g.arrays.Consistent := by
  induction h with
  | start => exact .empty
  | load h => exact (sound_ofDocument h).arraysConsistent
  | @mutate g _ m s ih =>
    rcases m.after_cases ih s with hm | ⟨e, g', -, heq, rfl | hpart⟩
    · exact Mutation.consistent_attempt ih hm
    · rw [heq]
      exact ih
    · rw [heq]
      obtain ⟨donor, hcopied⟩ | ⟨name, rfl⟩ := hpart.cases
      · obtain ⟨actions, calculations, rfl⟩ := hcopied.frame
        exact ih
      · exact ih.remove name
  | commit _ s ih => exact consistent_commitArrays ih s
  | entry _ _ _ _ ih => exact ih

/-- What the empty program and loaded ones have, and mutations keep, parts of them included, as do
commits and changes of table entries, every built program has. -/
theorem Built.induct {P : Program → Prop} (hstart : P {})
    (hload : ∀ {g s s' v}, ofDocument s v = .ok (g, s') → P g)
    (hattempt : ∀ {g g' s s'} {m : Mutation}, P g → m.attempt g s = .ok (g', s') → P g')
    (hcopied : ∀ {donor g g'}, P g → Copied donor g g' → P g')
    (hremove : ∀ {g} name, P g → P { g with arrays := g.arrays.remove name })
    (hcommit : ∀ {g} s, P g → P (g.commitArrays s).1)
    (hentry : ∀ {g pipeline table p t t'}, P g → g.pipeline? pipeline = some p →
      p.table? table = some t → t.EntryChange t' →
      P (g.setPipeline pipeline (p.modifyTable table fun _ => t'))) (h : g.Built) : P g := by
  induction h with
  | start => exact hstart
  | load h => exact hload h
  | @mutate g hg m s ih =>
    rcases m.after_cases hg.consistent s with hm | ⟨e, g', -, heq, rfl | hpart⟩
    · exact hattempt ih hm
    · rw [heq]
      exact ih
    · rw [heq]
      obtain ⟨donor, hcopies⟩ | ⟨name, rfl⟩ := hpart.cases
      · exact hcopied ih hcopies
      · exact hremove name ih
  | commit _ s ih => exact hcommit s ih
  | entry _ hp ht hchange ih => exact hentry ih hp ht hchange

/-! ### What holds of built programs -/

/-- What holds of every program that can be built: arrays and calculations are consistent, no name
of a calculation is stray, the counter of actions is ahead up to the largest id, the pipelines agree
with some log, and ids are integers of 32 bits. -/
structure Coherent (g : Program) : Prop where
  arrays : g.arrays.Consistent
  calculations : g.calculations.Consistent
  strays : g.calculations.strays = []
  actions : g.actions.Counted
  graphs : ∃ log, g.Follows log
  inRange : g.InRange

namespace Coherent

/-- The arrays change, and their counter does not. -/
theorem setArrays (h : g.Coherent) {arrays : ObjectMap RegisterArray}
    (harrays : arrays.Consistent) (hcounts : CountsOn True g { g with arrays }) :
    Coherent { g with arrays } := by
  obtain ⟨log, hlog⟩ := h.graphs
  exact { h with
    arrays := harrays
    graphs := ⟨log, hlog.congr rfl⟩
    inRange := hcounts.inRange h.inRange }

theorem copied (h : g.Coherent) (hcopied : Copied donor g g') : g'.Coherent := by
  have hcalculations := hcopied.consistent h.calculations
  have hstrays := hcopied.strays.trans h.strays
  have hactions := hcopied.counted h.actions
  have hinRange := hcopied.countsOn.inRange h.inRange
  obtain ⟨log, hlog⟩ := h.graphs
  obtain ⟨actions, calculations, rfl⟩ := hcopied.frame
  exact ⟨h.arrays, hcalculations, hstrays, hactions, ⟨log, hlog.congr rfl⟩, hinRange⟩

/-- One pipeline changes as the graph of a log, and counters of nodes move on. -/
theorem setPipeline (h : g.Coherent) {p' : Pipeline} {conditionalIds tableIds : IdCounter}
    (hg' : g' = { g.setPipeline pipeline p' with conditionalIds, tableIds }) {log : Log}
    (hlog : g'.Follows log) {low : Prop} (hcounts : CountsOn low g g') : g'.Coherent := by
  have hinRange := hcounts.inRange h.inRange
  subst hg'
  exact ⟨h.arrays, h.calculations, h.strays, h.actions, ⟨log, hlog⟩, hinRange⟩

theorem edit (h : g.Coherent) {e : Edit} (hrun : e.run donor (g, s) = .ok (g', s')) :
    g'.Coherent := by
  obtain ⟨log, hlog⟩ := h.graphs
  have harrays := Edit.consistent_run h.arrays hrun
  have hcounts := Edit.countsOn_run hlog hrun
  have hlog' := hlog.edit hrun
  have hactions := Edit.counted_run h.actions hrun
  by_cases hnodes : e.onNodes = false
  · obtain ⟨hframe, -⟩ := frame_of_not_onNodes hnodes hrun
    rw [hframe] at hlog' hcounts ⊢
    exact { h with
      arrays := harrays, graphs := ⟨_, hlog'⟩, inRange := hcounts.inRange h.inRange }
  · obtain ⟨as, g₁, ids, _, _, _, hadopt, -, -, -, hframe⟩ :=
      Edit.frame_of_onNodes (Bool.not_eq_false _ ▸ hnodes) hrun
    have h₁ := h.copied (copied_adoptActions hadopt)
    have hcalculations : g'.calculations = g₁.calculations := by
      rw [hframe]
      rfl
    exact ⟨harrays, hcalculations ▸ h₁.calculations, hcalculations ▸ h₁.strays, hactions,
      ⟨_, hlog'⟩, hcounts.inRange h.inRange⟩

theorem attempt (h : g.Coherent) {m : Mutation} (hm : m.attempt g s = .ok (g', s')) :
    g'.Coherent := by
  obtain ⟨pipeline, name, definition?, rfl⟩ | ⟨donor, e, -, hedit⟩ := m.exists_edit
  · obtain ⟨_, hg, heq⟩ := map_eq_ok.mp hm
    obtain ⟨p, d, r, p', hp, -, hins, rfl⟩ := insertConditional_ok hg
    cases heq
    obtain ⟨log, hlog⟩ := h.graphs
    obtain ⟨seat, hseat⟩ := hlog.get hp
    have hids : Node.TakesId g g.conditionalIds.bump g.tableIds
        (.conditional (d.instantiate name g.conditionalIds.next)) := ⟨rfl, rfl, rfl⟩
    exact h.setPipeline rfl (hlog.insert hp (fun _ => none)
      (fun q e he => Conditional.edgeAt?_instantiate he) hins) (hids.countsOn hp hseat hins)
  · rw [hedit] at hm
    exact h.edit hm

end Coherent

theorem Built.coherent (h : g.Built) : g.Coherent := by
  refine h.induct ?_ (fun {g s s' v} hload => ?_) (fun hg hm => hg.attempt hm)
    (fun hg hcopied => hg.copied hcopied) (fun {g} name hg => ?_) (fun {g} s hg => ?_)
    fun {g pipeline table p t t'} hg hp ht hchange => ?_
  · exact ⟨.empty, .empty, rfl, fun _ => List.forall_mem_nil _, ⟨[], nofun⟩, .start {}⟩
  · have hsound := sound_ofDocument hload
    exact ⟨hsound.arraysConsistent, hsound.calculationsConsistent, (strays_ofDocument hload).2,
      hsound.actionsCounted, hsound.graphs, inRange_ofDocument hload⟩
  · exact hg.setArrays (hg.arrays.remove name)
      (.replaceArrays (ObjectMap.ids_remove ..) fun b hb =>
        ⟨b, ObjectMap.mem_of_mem_remove hb, rfl⟩)
  · exact hg.setArrays (consistent_commitArrays hg.arrays s) (countsOn_commitArrays True g s)
  · obtain ⟨log, hlog⟩ := hg.graphs
    exact hg.setPipeline rfl (hlog.modifyTable hp ht hchange.keepsGraph)
      (countsOn_entry True hlog hp ht hchange)

/-- What an edit makes of a built program is built. -/
theorem Built.edit (h : g.Built) {e : Edit} (hrun : e.run donor (g, s) = .ok (g', s')) :
    g'.Built := by
  have hafter := h.mutate (e.mutation donor) s
  rw [Edit.run_eq_attempt] at hrun
  rcases (e.mutation donor).after_cases h.consistent s with hm | ⟨_, _, hm, -⟩
  · rw [hm, Except.ok.injEq] at hrun
    rwa [hrun] at hafter
  · rw [hm] at hrun
    cases hrun

/-- The programs that a switch can come to run are built. -/
theorem Reached.built (h : g.Reached) : g.Built := by
  induction h with
  | start => exact .start
  | load h => exact .load h
  | plan _ _ _ hrun ih =>
    refine .commit ?_ _
    refine foldlM_induction (P := fun x : Program × Store => x.1.Built) ?_ ih hrun
    exact fun e _ _ _ hg hstep => hg.edit hstep
  | entry _ hp ht hchange ih => exact ih.entry hp ht hchange

end Program

namespace Mutation

/-- A mutation of a built program takes place as a whole, or it is refused and leaves the store as
it was, and the program unless part of the mutation is left.  None is as long as ids have not come
round. -/
theorem done_or_refused (hg : g.Built) (m : Mutation) (s : Store) :
    (∀ state, m.inPlace.run (g, s) = .ok () state → m.attempt g s = .ok state) ∧
      ∀ e state, m.inPlace.run (g, s) = .error e state →
        m.attempt g s = .error e ∧ state.2 = s ∧ (state.1 = g ∨ m.LeavesPart g e state.1) ∧
        (g.arrays.strays = [] → g.calculations.Ahead →
          (∀ c ∈ state.1.calculations.objects, idOf c < maxId) → state.1 = g) := by
  refine ⟨fun state => (run_eq_ok_iff hg.consistent).mp, fun e state h => ?_⟩
  have hends := ends_inPlace hg.consistent m s
  cases hattempt : m.attempt g s with
  | ok made =>
    rw [(run_eq_ok_iff hg.consistent).mpr hattempt] at h
    cases h
  | error refusal =>
    rw [hattempt] at hends
    obtain ⟨g', hrun, hleft⟩ := hends
    rw [hrun] at h
    injection h with he hstate
    subst he hstate
    exact ⟨rfl, rfl, hleft, fun hstrays hahead hmax =>
      hleft.resolve_right (not_leavesPart hstrays hahead hmax)⟩

/-- The edge of an action that a table does not have. -/
theorem refused_edge_changes_nothing :
    ((setTableNext "p" "t" (.action "gone") (some "t")).inPlace.run
        (Program.defaultProgram 0, ⟨[.zeros 4 8]⟩) =
      .error (.notFound .action "gone") (Program.defaultProgram 0, ⟨[.zeros 4 8]⟩)) := by
  have hload : Program.ofDocument {} (Program.defaultDocument 0) =
      .ok (Program.defaultProgram 0, {}) := rfl
  obtain ⟨hok, hrefused⟩ := done_or_refused (.load hload)
    (setTableNext "p" "t" (.action "gone") (some "t")) ⟨[.zeros 4 8]⟩
  cases hrun : (setTableNext "p" "t" (.action "gone") (some "t")).inPlace.run
      (Program.defaultProgram 0, ⟨[.zeros 4 8]⟩) with
  | ok u state => cases hok state hrun
  | error e state =>
    obtain ⟨he, hs, hg, -⟩ := hrefused e state hrun
    cases he
    obtain rfl : state = (Program.defaultProgram 0, ⟨[.zeros 4 8]⟩) :=
      Prod.ext (hg.resolve_right not_false) hs
    rfl

/-! ### A table that gets stuck -/

/-- The record of an action. -/
def actionRecord (id : Int) (name : String) (primitives : List Json.Value) : Json.Value :=
  .object [("id", .ofInt id), ("name", .string name), ("primitives", .array primitives)]

/-- The record of a calculation. -/
def calculationRecord (id : Int) (name algorithm : String) : Json.Value :=
  .object [("algo", .string algorithm), ("id", .ofInt id), ("name", .string name)]

/-- A primitive that uses a calculation. -/
def hashPrimitive (calculation : String) : Json.Value :=
  let field : Json.Value := .object
    [("type", .string "field"), ("value", .array [.string "h", .string "f"])]
  .object [("op", .string "modify_field_with_hash_based_offset"),
    ("parameters", .array [field, field,
      .object [("type", .string "calculation"), ("value", .string calculation)], field])]

/-- A pipeline without nodes beside calculations of the smallest id and of the largest one. -/
def exhaustedDocument : Json.Value :=
  .object [("calculations", .array [calculationRecord minId "c" "crc16",
      calculationRecord maxId "d" "crc16"]),
    ("pipelines", .array [.object [("id", .ofNat 0), ("name", .string "p")]])]

/-- A table of two actions, the second of which uses a calculation. -/
def hashingDocument : Json.Value :=
  .object [("actions", .array
      [actionRecord 0 "idle" [], actionRecord 1 "mark" [hashPrimitive "e"]]),
    ("calculations", .array [calculationRecord 0 "e" "crc16"]),
    ("pipelines", .array [.object [("id", .ofNat 0), ("name", .string "p"),
      ("tables", .array [.object [("action_ids", .array [.ofNat 0, .ofNat 1]),
        ("id", .ofNat 0), ("name", .string "t")]])]])]

/-- A document that loads as a program with a property. -/
theorem exists_of_any {v : Json.Value} {P : Program × Store → Bool}
    (h : (Program.ofDocument {} v).toOption.any P = true) :
    ∃ g s, Program.ofDocument {} v = .ok (g, s) ∧ P (g, s) = true := by
  obtain ⟨⟨g, s⟩, hload, hP⟩ := exists_of_any_toOption h
  exact ⟨g, s, hload, hP⟩

/-- A table is refused for the calculation of its second action, and the copy of the first one is
left. -/
theorem refused_table_leaves_action : ∃ g donor e g' s',
    Program.ofDocument {} exhaustedDocument = .ok (g, {}) ∧
    Program.ofDocument {} hashingDocument = .ok (donor, {}) ∧
    (insertTable donor "p" "t").inPlace.run (g, {}) = .error e (g', s') ∧
    g.actions.actions = [] ∧ g'.actions.actions.map Action.name = ["idle"] := by
  obtain ⟨g, s, hg, hfacts⟩ := exists_of_any (v := exhaustedDocument) (P := fun x =>
    x.2 = {} ∧ x.1.actions.actions = [] ∧ (Program.ofDocument {} hashingDocument).toOption.any
      fun y => y.2 = {} && match (insertTable y.1 "p" "t").inPlace.run (x.1, {}) with
        | .ok _ _ => false
        | .error _ state => state.1.actions.actions.map Action.name == ["idle"]) (by decide +kernel)
  obtain ⟨rfl, hnone, hfacts⟩ := of_decide_eq_true hfacts
  obtain ⟨donor, s', hdonor, hfacts⟩ := exists_of_any hfacts
  obtain ⟨hs', hrun⟩ := Bool.and_eq_true_iff.mp hfacts
  obtain rfl := of_decide_eq_true hs'
  dsimp only at hrun
  split at hrun
  case h_1 => cases hrun
  case h_2 e state heq =>
    exact ⟨g, donor, e, state.1, state.2, hg, hdonor, heq, hnone, beq_iff_eq.mp hrun⟩

end Mutation

end LiveSwitch
