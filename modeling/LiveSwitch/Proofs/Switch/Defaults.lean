import LiveSwitch.Proofs.Switch.Copies

/-!
# What a miss runs in a table from a donor

A table from a donor gets copies of the actions that the donor's table lists, and its default entry
is renumbered along with them.  A default entry may also name an action that its table does not
list.  Then nothing is copied for it: the id stays as it is in the donor, and a miss runs whatever
the program has under that id, or nothing.

## Main results

* `Mutation.insertTable_default` — the default entry of a table from a donor.
* `Mutation.unlisted_default_not_copied` — a miss that runs an unrelated action.
-/

namespace LiveSwitch.Mutation

variable {g g' donor : Program} {s s' : Store} {pipeline name : String}

/-- The default entry of a table from a donor.  If the donor's table lists the action of its own
default entry, the new one names a copy of that action, under an id that is new if there is room for
all copies.  If not, the new one keeps the id, under which the program has what it had there, or a
copy of another action that the donor's table lists. -/
theorem insertTable_default (hg : g.Built)
    (hrun : (insertTable donor pipeline name).inPlace.run (g, s) = .ok () (g', s')) {d : Table}
    (hd : (donor.pipeline? pipeline).bind (·.table? name) = some d) {e : DefaultEntry}
    (he : d.default? = some e) {a : Action} (ha : donor.action? e.actionId = some a) :
    ∃ t id, g'.node? pipeline name = some (.table t) ∧
      t.default? = some { e with actionId := id } ∧
      (e.actionId ∈ d.actionIds → id ∈ t.actionIds ∧
        (d.actionIds.length ≤ 2 ^ 32 → g'.action? id = some (a.withId id)) ∧
        (g.actions.HasRoom d.actionIds.length → g.action? id = none)) ∧
      (e.actionId ∉ d.actionIds → id = e.actionId ∧
        (id ∉ t.actionIds → g'.action? id = g.action? id) ∧
        (id ∈ t.actionIds → ∃ old b, old ∈ d.actionIds ∧ donor.action? old = some b ∧
          g'.action? id = some (b.withId id))) := by
  obtain ⟨hinsert, -⟩ := (insertTable_run_eq_ok hg).mp hrun
  obtain ⟨log, hlog⟩ := hg.coherent.graphs
  have hvalid := hg.coherent.inRange.next .action
  obtain ⟨d', as, t, hgains⟩ :=
    Program.gainsTable_insertTable hlog hg.coherent.strays hinsert
  obtain rfl := Option.some.inj (hgains.definition.symm.trans hd)
  have hnode : g'.node? pipeline name = some (.table t) :=
    (hgains.node pipeline name).trans (if_pos ⟨rfl, rfl⟩)
  by_cases hlisted : e.actionId ∈ d'.actionIds
  · obtain ⟨id, hdefault, hid, hcopy⟩ := hgains.default he hlisted
    refine ⟨t, id, hnode, hdefault, fun _ => ⟨hid, fun hlength => ?_, fun hroom => ?_⟩,
      fun h => absurd hlisted h⟩
    · obtain ⟨b, hb, hcopied⟩ := hcopy (hgains.nodup_actionIds hvalid hlength)
      obtain rfl := Option.some.inj (hb.symm.trans ha)
      exact hcopied
    · exact ((hgains.copiesAnew_iff hvalid).mpr hroom).free id hid
  · exact ⟨t, e.actionId, hnode, hgains.default_of_not_mem he hlisted, fun h => absurd h hlisted,
      fun _ => ⟨rfl, hgains.action?_eq, hgains.exists_copied⟩⟩

/-! ### A default entry with two actions to choose from -/

/-- A pipeline without nodes beside an action. -/
def forwardDocument : Json.Value :=
  .object [("actions", .array [actionRecord 5 "forward" []]),
    ("pipelines", .array [.object [("id", .ofNat 0), ("name", .string "p")]])]

/-- A table that drops packets on a miss, by a definition that lists some of the two actions. -/
def dropDocument (listed : List Nat) : Json.Value :=
  .object [("actions", .array [actionRecord 0 "idle" [], actionRecord 5 "drop" []]),
    ("pipelines", .array [.object [("id", .ofNat 0), ("name", .string "p"),
      ("tables", .array [.object [("action_ids", .array (listed.map .ofNat)),
        ("default_entry", .object [("action_data", .array []), ("action_id", .ofNat 5)]),
        ("id", .ofNat 0), ("name", .string "t")]])]])]

/-- The id in the default entry of the table. -/
def defaultId? (g : Program) : Option Int :=
  ((g.node? "p" "t").bind Node.table?).bind fun t => t.default?.map DefaultEntry.actionId

/-- A listed default action is copied, to the second of the next two ids. -/
theorem listed_default_copied : ∃ g s donor s' g' t a,
    Program.ofDocument {} forwardDocument = .ok (g, s) ∧
    Program.ofDocument {} (dropDocument [0, 5]) = .ok (donor, s') ∧
    (insertTable donor "p" "t").inPlace.run (g, s) = .ok () (g', s) ∧
    donor.action? 5 = some a ∧ g'.node? "p" "t" = some (.table t) ∧
    t.default?.map DefaultEntry.actionId = some 7 ∧ g'.action? 7 = some (a.withId 7) := by
  obtain ⟨g, s, donor, s', g', hg, hdonor, hinsert, hfacts⟩ := exists_insertTable_of_any
    (v := forwardDocument) (w := dropDocument [0, 5]) (P := fun _ donor g' =>
      (donor.action? 5).isSome ∧ ((donor.pipeline? "p").bind (·.table? "t")).map
        (fun d => (d.actionIds, d.default?.map DefaultEntry.actionId)) = some ([0, 5], some 5) ∧
      defaultId? g' = some 7) (by decide +kernel)
  obtain ⟨haction, htable, hnew⟩ := of_decide_eq_true hfacts
  obtain ⟨a, ha⟩ := Option.isSome_iff_exists.mp haction
  obtain ⟨d, hd, hshape⟩ := Option.map_eq_some_iff.mp htable
  obtain ⟨hids, hdefault⟩ := Prod.mk.inj hshape
  obtain ⟨e, he, hid⟩ := Option.map_eq_some_iff.mp hdefault
  have hrun := (insertTable_run_eq_ok (s := s) (.load hg)).mpr ⟨hinsert, rfl⟩
  obtain ⟨t, id, hnode, ht, hlisted, -⟩ :=
    insertTable_default (.load hg) hrun hd he (hid ▸ ha)
  have hid' : id = 7 := by
    rw [defaultId?, hnode] at hnew
    simpa [Node.table?, ht] using hnew
  subst hid'
  obtain ⟨-, hcopy, -⟩ := hlisted (by rw [hids, hid]; decide)
  exact ⟨g, s, donor, s', g', t, a, hg, hdonor, hrun, ha, hnode, by rw [ht]; rfl,
    hcopy (by rw [hids]; decide)⟩

/-- A default action that the donor's table does not list is not copied: a miss forwards packets
in place of dropping them. -/
theorem unlisted_default_not_copied : ∃ g s donor s' g' a b,
    Program.ofDocument {} forwardDocument = .ok (g, s) ∧
    Program.ofDocument {} (dropDocument [0]) = .ok (donor, s') ∧
    (insertTable donor "p" "t").inPlace.run (g, s) = .ok () (g', s) ∧
    defaultId? donor = some 5 ∧ donor.action? 5 = some a ∧ a.name = "drop" ∧
    defaultId? g' = some 5 ∧ g'.action? 5 = some b ∧ b.name = "forward" ∧ b ≠ a.withId 5 := by
  obtain ⟨g, s, donor, s', g', hg, hdonor, hinsert, hfacts⟩ := exists_insertTable_of_any
    (v := forwardDocument) (w := dropDocument [0]) (P := fun _ donor g' =>
      (donor.action? 5).map Action.name = some "drop" ∧
      (g'.action? 5).map Action.name = some "forward" ∧ defaultId? donor = some 5 ∧
      defaultId? g' = some 5) (by decide +kernel)
  obtain ⟨hdrop, hforward, hold, hnew⟩ := of_decide_eq_true hfacts
  obtain ⟨a, ha, hname⟩ := Option.map_eq_some_iff.mp hdrop
  obtain ⟨b, hb, hname'⟩ := Option.map_eq_some_iff.mp hforward
  have hrun := (insertTable_run_eq_ok (s := s) (.load hg)).mpr ⟨hinsert, rfl⟩
  refine ⟨g, s, donor, s', g', a, b, hg, hdonor, hrun, hold, ha, hname, hnew, hb, hname', ?_⟩
  rintro rfl
  have hnames : "forward" = "drop" := hname'.symm.trans hname
  exact absurd hnames (by decide)

end LiveSwitch.Mutation
