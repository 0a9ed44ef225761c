import LiveSwitch.Proofs.Program.Copies
import LiveSwitch.Proofs.Switch.Drafts
import LiveSwitch.Proofs.Switch.Mutations

/-!
# Tables from a donor

Whatever was done to a program before, a table that it gets from a donor is a copy of the donor's,
and but for actions nothing else about the program changes.  The actions that come along get the
next ids.  These are new as long as the counter of actions does not come round; after that a copy
may replace an action that was there, or a copy from before.

## Main results

* `Program.Draft.built` — the candidates of plans are built.
* `Mutation.insertTable_succeeds_iff` — when a table of a loaded donor is inserted.
* `Mutation.insertTable_faithful` — what the program is then, and when its earlier actions stay.
* `Mutation.copied_action_replaces` — a copy in the place of an action that was there.
-/

namespace LiveSwitch

variable {g g' donor : Program} {s s' : Store} {pipeline name : String}

/-- The candidates of plans are built. -/
theorem Program.Draft.built {active : Program} (h : Draft active g s) : g.Built := by
  induction h with
  | @start n cxt events c hc hactive =>
    refine Reached.built (hactive ▸ History.reached_after n events ?_)
    exact Or.inl ⟨c, List.mem_of_getElem? hc, rfl⟩
  | edit _ _ _ hrun ih => exact ih.edit hrun
  | meanwhile _ _ ih => exact ih

/-! ### When a table is inserted -/

namespace Program

theorem exists_actions {ids : List Int} (h : ∀ id ∈ ids, (g.action? id).isSome) :
    ∃ as, List.Forall₂ (fun id a => g.action? id = some a) ids as := by
  induction ids with
  | nil => exact ⟨[], .nil⟩
  | cons id ids ih =>
    obtain ⟨a, ha⟩ := Option.isSome_iff_exists.mp (h id List.mem_cons_self)
    obtain ⟨as, has⟩ := ih fun id' hid => h id' (List.mem_cons_of_mem id hid)
    exact ⟨a :: as, .cons ha has⟩

/-- The tables of a loaded donor have all of their actions. -/
theorem Sound.existingActions (h : donor.Sound) {d : Table}
    (hd : (donor.pipeline? pipeline).bind (·.table? name) = some d) :
    ∃ as, donor.existingActions d.actionIds = .ok as := by
  obtain ⟨p, hp, ht⟩ := Option.bind_eq_some_iff.mp hd
  have hsound := (h.pipelines p (ObjectMap.mem_of_get? hp).1).nodes _
    (Pipeline.mem_nodes_of_table? ht)
  obtain ⟨as, has⟩ := exists_actions (Table.Sound.actions hsound)
  exact ⟨as, existingActions_eq_ok.mpr has⟩

/-- A table whose name is free and that the donor defines goes in, or a copied calculation gets
stuck. -/
theorem insertTable_done_or_stuck (h : donor.Sound) {p : Pipeline}
    (hp : g.pipeline? pipeline = some p) (hfree : p.find? name = none) {d : Table}
    (hd : (donor.pipeline? pipeline).bind (·.table? name) = some d) :
    (∃ g', g.insertTable donor pipeline name = .ok g') ∨
      ∃ e g', g.insertTable donor pipeline name = .error e ∧ Copied donor g g' ∧
        Stuck donor g' e := by
  obtain ⟨as, has⟩ := h.existingActions hd
  have hcopies := InPlace.endsAs_mapM_copyAction donor g {} as
  have hrun : g.insertTable donor pipeline name = (do
      let x ← adoptActions donor g as
      let p' ← p.adopt .table (.table (d.instantiate name x.1.tableIds.next x.2))
      return { x.1.setPipeline pipeline p' with tableIds := x.1.tableIds.bump }) := by
    rw [insertTable, existingPipeline_eq_ok.mpr hp]
    show (if (p.find? name).isSome then _ else _) = _
    rw [hfree, Option.isSome_none, if_neg Bool.false_ne_true, hd]
    dsimp only
    rw [has]
    rfl
  rw [hrun]
  unfold Mutating.EndsAs at hcopies
  cases hadopt : adoptActions donor g as with
  | ok x =>
    obtain ⟨p', hp'⟩ := Pipeline.adopt_eq_ok
      (n := .table (d.instantiate name x.1.tableIds.next x.2)) hfree .table
    exact Or.inl ⟨_, bind_eq_ok.mpr ⟨x, rfl, bind_eq_ok.mpr ⟨p', hp', rfl⟩⟩⟩
  | error e =>
    rw [hadopt] at hcopies
    obtain ⟨g', -, hcopied, hstuck⟩ := hcopies
    exact Or.inr ⟨e, g', rfl, hcopied, hstuck⟩

end Program

namespace Mutation

theorem insertTable_run_eq_ok (hg : g.Built) :
    (insertTable donor pipeline name).inPlace.run (g, s) = .ok () (g', s') ↔
      g.insertTable donor pipeline name = .ok g' ∧ s = s' := by
  rw [run_eq_ok_iff hg.consistent]
  constructor
  · intro hattempt
    obtain ⟨_, hinsert, heq⟩ := map_eq_ok.mp hattempt
    cases heq
    exact ⟨hinsert, rfl⟩
  · rintro ⟨hinsert, rfl⟩
    exact map_eq_ok.mpr ⟨g', hinsert, rfl⟩

/-- A table of a loaded donor is inserted exactly when its name is free, the donor defines it and no
calculation that is copied along gets stuck. -/
theorem insertTable_succeeds_iff (hg : g.Built) {s₁ s₂ : Store} {v : Json.Value}
    (hdonor : Program.ofDocument s₁ v = .ok (donor, s₂)) :
    (∃ state, (insertTable donor pipeline name).inPlace.run (g, s) = .ok () state) ↔
      (∃ p, g.pipeline? pipeline = some p ∧ p.find? name = none) ∧
        (∃ d, (donor.pipeline? pipeline).bind (·.table? name) = some d) ∧
          ∀ e g', g.insertTable donor pipeline name = .error e → Program.Copied donor g g' →
            ¬Program.Stuck donor g' e := by
  constructor
  · rintro ⟨⟨g', s'⟩, hrun⟩
    have hinsert := ((insertTable_run_eq_ok hg).mp hrun).1
    obtain ⟨p, d, _, _, _, _, _, hp, hd, -, -, hins, -⟩ := Program.insertTable_ok hinsert
    refine ⟨⟨p, hp, (Pipeline.find?_insertNode hins).1⟩, ⟨d, hd⟩, fun e g' he => ?_⟩
    rw [hinsert] at he
    cases he
  · rintro ⟨⟨p, hp, hfree⟩, ⟨d, hd⟩, hstuck⟩
    obtain ⟨g', hinsert⟩ | ⟨e, g', he, hcopied, hleft⟩ :=
      Program.insertTable_done_or_stuck (Program.sound_ofDocument hdonor) hp hfree hd
    · exact ⟨(g', s), (insertTable_run_eq_ok hg).mpr ⟨hinsert, rfl⟩⟩
    · exact absurd hleft (hstuck e g' he hcopied)

/-- A table that is inserted is a copy of the donor's, calculations come along, and everything else
but actions stays as it was.  The actions are copied to new ids, one after the other, exactly if
there is room for them. -/
theorem insertTable_faithful (hg : g.Built)
    (hrun : (insertTable donor pipeline name).inPlace.run (g, s) = .ok () (g', s')) :
    s' = s ∧ ∃ d as t, Program.GainsTable donor pipeline name d as t g g' ∧
      (Program.CopiesAnew donor d.actionIds t.actionIds g g' ↔
        g.actions.HasRoom d.actionIds.length) := by
  obtain ⟨hinsert, hs⟩ := (insertTable_run_eq_ok hg).mp hrun
  obtain ⟨log, hlog⟩ := hg.coherent.graphs
  obtain ⟨d, as, t, hgains⟩ :=
    Program.gainsTable_insertTable hlog hg.coherent.strays hinsert
  exact ⟨hs.symm, d, as, t, hgains, hgains.copiesAnew_iff (hg.coherent.inRange.next .action)⟩

/-! ### Actions that are listed twice -/

/-- A pipeline without nodes, an action and a calculation. -/
def recipientDocument : Json.Value :=
  .object [("actions", .array [actionRecord 0 "idle" []]),
    ("calculations", .array [calculationRecord 4 "c" "crc16"]),
    ("pipelines", .array [.object [("id", .ofNat 0), ("name", .string "p")]])]

/-- A table that lists an action twice and another one of the same name in between.  Of the two
calculations that the action uses, one has a name that the recipient has, too. -/
def giverDocument : Json.Value :=
  .object [("actions", .array [actionRecord 3 "mark" [hashPrimitive "c", hashPrimitive "e"],
      actionRecord 5 "mark" []]),
    ("calculations", .array [calculationRecord 0 "c" "identity",
      calculationRecord 1 "e" "csum16"]),
    ("pipelines", .array [.object [("id", .ofNat 0), ("name", .string "p"),
      ("tables", .array [.object [("action_ids", .array [.ofNat 3, .ofNat 5, .ofNat 3]),
        ("id", .ofNat 0), ("name", .string "t"),
        ("next_tables", .object [("__HIT__", .null)])]])]])]

/-- Two documents that load, and the first one then gets the second one's table. -/
theorem exists_insertTable_of_any {v w : Json.Value} {P : Program → Program → Program → Bool}
    (h : (Program.ofDocument {} v).toOption.any (fun x => (Program.ofDocument {} w).toOption.any
      fun y => (x.1.insertTable y.1 "p" "t").toOption.any (P x.1 y.1)) = true) :
    ∃ g s donor s' g', Program.ofDocument {} v = .ok (g, s) ∧
      Program.ofDocument {} w = .ok (donor, s') ∧ g.insertTable donor "p" "t" = .ok g' ∧
      P g donor g' = true := by
  obtain ⟨g, s, hg, h⟩ := exists_of_any h
  obtain ⟨donor, s', hdonor, h⟩ := exists_of_any h
  cases hrun : g.insertTable donor "p" "t" with
  | ok g' => exact ⟨g, s, donor, s', g', hg, hdonor, hrun, by rwa [hrun] at h⟩
  | error e =>
    dsimp only at h
    rw [hrun] at h
    cases h

/-- Each listing of the action gets a copy of its own, a hit edge is there, the calculation of the
recipient stays, and the other one comes along. -/
theorem repeated_action_copied_twice : ∃ g s donor s' g' t a,
    Program.ofDocument {} recipientDocument = .ok (g, s) ∧
    Program.ofDocument {} giverDocument = .ok (donor, s') ∧
    (insertTable donor "p" "t").inPlace.run (g, s) = .ok () (g', s) ∧
    g'.node? "p" "t" = some (.table t) ∧ t.actionIds = [1, 2, 3] ∧ t.hitNext? = some none ∧
    donor.action? 3 = some a ∧ g'.action? 1 = some (a.withId 1) ∧
    g'.action? 3 = some (a.withId 3) ∧
    (g'.calculation? "c").map Calculation.algorithm = some .crc16 ∧
    (g'.calculation? "e").map Calculation.algorithm = some .csum16 := by
  obtain ⟨g, s, donor, s', g', hg, hdonor, hinsert, hfacts⟩ := exists_insertTable_of_any
    (v := recipientDocument) (w := giverDocument) (P := fun g donor _ =>
      g.actions.nextId = 1 ∧ (∀ a ∈ g.actions.actions, idOf a < g.actions.nextId) ∧
      (g.calculation? "c").map Calculation.algorithm = some .crc16 ∧
      g.calculation? "e" = none ∧
      ((donor.pipeline? "p").bind (·.table? "t")).map (fun d => (d.actionIds, d.hitNext?)) =
        some ([3, 5, 3], some none) ∧
      (donor.action? 3).map Action.calculations = some ["c", "e"] ∧
      (donor.calculation? "e").map Calculation.algorithm = some .csum16) (by decide +kernel)
  obtain ⟨hnext, hahead, hown, hfree, htable, haction, hbrought⟩ := of_decide_eq_true hfacts
  obtain ⟨c, hc, hcrc⟩ := Option.map_eq_some_iff.mp hown
  obtain ⟨d, hd, hshape⟩ := Option.map_eq_some_iff.mp htable
  obtain ⟨hids, hhit⟩ := Prod.mk.inj hshape
  obtain ⟨a, ha, hnames⟩ := Option.map_eq_some_iff.mp haction
  obtain ⟨e, he, hcsum⟩ := Option.map_eq_some_iff.mp hbrought
  have hrun := (insertTable_run_eq_ok (s := s) (.load hg)).mpr ⟨hinsert, rfl⟩
  obtain ⟨-, d', as, t, hgains, hanew⟩ := insertTable_faithful (.load hg) hrun
  obtain rfl := Option.some.inj (hgains.definition.symm.trans hd)
  have hroom : g.actions.HasRoom d'.actionIds.length :=
    ActionTable.hasRoom_of_ahead hahead (by rw [hids, hnext]; decide)
  obtain ⟨hactionIds, -, -, hcopied, -⟩ := hanew.mpr hroom
  rw [hids, hnext] at hactionIds
  replace hactionIds : t.actionIds = [1, 2, 3] := hactionIds
  have hlisted := hgains.listed
  rw [hids] at hlisted hcopied
  rw [hactionIds] at hcopied
  obtain _ | ⟨⟨a₁, ha₁, hfirst⟩, _ | ⟨-, _ | ⟨⟨a₃, ha₃, hlast⟩, -⟩⟩⟩ := hcopied
  obtain rfl := Option.some.inj (ha₁.symm.trans ha)
  obtain rfl := Option.some.inj (ha₃.symm.trans ha)
  have huses : "e" ∈ as.flatMap Action.calculations := by
    obtain _ | ⟨hb, -⟩ := hlisted
    obtain rfl := Option.some.inj (hb.symm.trans ha)
    exact List.mem_flatMap.mpr ⟨_, List.mem_cons_self, by rw [hnames]; decide⟩
  obtain ⟨id, -, hcopy⟩ := hgains.calculations.copied "e" huses hfree e he
  refine ⟨g, s, donor, s', g', t, a₃, hg, hdonor, hrun,
    (hgains.node "p" "t").trans (if_pos ⟨rfl, rfl⟩), hactionIds, ?_, ha, hfirst, hlast, ?_, ?_⟩
  · rw [hgains.table.hit, hhit]
    rfl
  · rw [hgains.calculations.kept "c" c hc]
    exact congrArg some hcrc
  · rw [hcopy]
    exact congrArg some hcsum

/-! ### Actions that come round -/

/-- A pipeline without nodes beside an action of the smallest id and one that leaves a single id
above it. -/
def crowdedDocument : Json.Value :=
  .object [("actions", .array [actionRecord minId "old" [], actionRecord (maxId - 1) "last" []]),
    ("pipelines", .array [.object [("id", .ofNat 0), ("name", .string "p")]])]

/-- The second of the copies gets the smallest id, in the place of the action that has it. -/
theorem copied_action_replaces : ∃ g s donor s' g' t,
    Program.ofDocument {} crowdedDocument = .ok (g, s) ∧
    Program.ofDocument {} giverDocument = .ok (donor, s') ∧
    (insertTable donor "p" "t").inPlace.run (g, s) = .ok () (g', s) ∧
    g'.node? "p" "t" = some (.table t) ∧ t.actionIds = [maxId, minId, minId + 1] ∧
    (g.action? minId).map Action.name = some "old" ∧
    (g'.action? minId).map Action.name = some "mark" := by
  obtain ⟨g, s, donor, s', g', hg, hdonor, hinsert, hfacts⟩ := exists_insertTable_of_any
    (v := crowdedDocument) (w := giverDocument) (P := fun g _ g' =>
      ((g'.node? "p" "t").bind Node.table?).map Table.actionIds =
        some [maxId, minId, minId + 1] ∧
      (g.action? minId).map Action.name = some "old" ∧
      (g'.action? minId).map Action.name = some "mark") (by decide +kernel)
  obtain ⟨htable, hold, hnew⟩ := of_decide_eq_true hfacts
  obtain ⟨t, ht, hids⟩ := Option.map_eq_some_iff.mp htable
  obtain ⟨_ | t', hnode, heq⟩ := Option.bind_eq_some_iff.mp ht
  · cases heq
  cases heq
  have hrun := (insertTable_run_eq_ok (s := s) (.load hg)).mpr ⟨hinsert, rfl⟩
  exact ⟨g, s, donor, s', g', t, hg, hdonor, hrun, hnode, hids, hold, hnew⟩

end Mutation

end LiveSwitch
