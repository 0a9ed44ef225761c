import LiveSwitch.Proofs.Program.Actions
import LiveSwitch.Proofs.Switch.Edges
import LiveSwitch.Proofs.Switch.Reloading

/-!
# The actions that tables refer to

The loader checks the actions of a table, plans copy them along with the table, and entries are
checked against them.  So of all the ids that a table refers to only that of the default entry
may be missing: neither the loader checks it, nor does a copy of the table bring its action
along unless it is one of the table's.  A packet that misses in such a table fails.

## Main definitions

* `Table.Refers` — a table refers to an action.
* `Program.ActionsExist` — all actions that tables refer to exist.

## Main results

* `Program.actionsExist_iff` — all actions exist exactly when those of default entries do, and
  packets fail for want of an action exactly when they miss in a table whose default entry has
  none.
-/

namespace LiveSwitch

/-- A table refers to an action: in its list, in the keys of its edges, in an entry or in the
default entry. -/
def Table.Refers (t : Table) (id : Int) : Prop :=
  id ∈ t.actionIds ∨ (∃ x ∈ t.nextByAction, x.1 = id) ∨ (∃ x ∈ t.entries, x.2.actionId = id) ∨
    ∃ d ∈ t.default?, d.actionId = id

/-- What a sound table refers to exists, or is the action of the default entry. -/
theorem Table.Sound.of_refers {actions : ActionTable} {t : Table} (h : t.Sound actions) {id : Int}
    (hid : t.Refers id) : (actions.get? id).isSome ∨ ∃ d ∈ t.default?, d.actionId = id := by
  rcases hid with hid | ⟨x, hx, rfl⟩ | ⟨x, hx, rfl⟩ | hid
  · exact Or.inl (h.actions id hid)
  · exact Or.inl (h.actions _ (h.next x hx))
  · exact Or.inl (h.actions _ (h.entries x hx))
  · exact Or.inr hid

/-- A sound table lacks the action for a packet only on a miss. -/
theorem Table.Sound.actionFor?_missing {actions : ActionTable} {t : Table} (h : t.Sound actions)
    {p : Packet} {id : Int} (hnone : actions.get? id = none) :
    t.actionFor? p = some id ↔
      t.entry? (t.keyOf p) = none ∧ ∃ d ∈ t.default?, d.actionId = id := by
  rw [actionFor?]
  cases hentry : t.entry? (t.keyOf p) with
  | some e =>
    refine iff_of_false (fun heq => ?_) fun hmiss => Option.some_ne_none e hmiss.1
    cases heq
    -- the action of an entry is one of the table's
    obtain ⟨l, l', hl, -⟩ := List.lookup_eq_some_iff.mp hentry
    have hmem : (t.keyOf p, e) ∈ t.entries := hl ▸ List.mem_append_right l List.mem_cons_self
    have hsome := h.actions _ (h.entries _ hmem)
    rw [hnone] at hsome
    cases hsome
  | none =>
    dsimp only
    rw [Option.map_eq_some_iff]
    exact (and_iff_right rfl).symm

namespace Program

variable {g : Program}

/-- A pipeline of a program has a table. -/
def HasTable (g : Program) (t : Table) : Prop :=
  ∃ p ∈ g.pipelines.objects, Node.table t ∈ p.nodes

/-- All actions that tables refer to exist. -/
def ActionsExist (g : Program) : Prop :=
  ∀ t, g.HasTable t → ∀ id, t.Refers id → (g.action? id).isSome

theorem Sound.table (h : g.Sound) {t : Table} (ht : g.HasTable t) : t.Sound g.actions := by
  obtain ⟨p, hp, hmem⟩ := ht
  exact (h.pipelines p hp).nodes _ hmem

/-- The tables that packets come to are tables of the program. -/
theorem hasTable_of_comesTo {p : Pipeline} {k : Nat} {place : Place} {t : Table}
    {m m₁ m₂ : Machine} (henters : g.Enters m p m₁)
    (hcomes : Pipeline.ComesTo g p k place m₁ (.table t) m₂) : g.HasTable t := by
  obtain ⟨place', r, -, -, hr⟩ := hcomes
  exact ⟨p, mem_of_enters henters, Pipeline.mem_nodes_of_resolve? hr⟩

/-- A packet ends for want of an action in a program that is reached exactly when it comes to a
table that has no entry for it and a default entry whose action is missing. -/
theorem Reached.unknownAction_iff (h : g.Reached) {m m' : Machine} {id : Int} :
    g.process.run m = .error (.unknownAction id) m' ↔
      ∃ p m₁ k t, g.Enters m p m₁ ∧ k < maxSteps ∧
        Pipeline.ComesTo g p k .start m₁ (.table t) m' ∧ t.entry? (t.keyOf m'.packet) = none ∧
        (∃ d ∈ t.default?, d.actionId = id) ∧ g.action? id = none := by
  obtain ⟨log, hlog⟩ := h.traced
  have hnamed : ∀ p ∈ g.pipelines.objects, p.Named := by
    intro p hp
    obtain ⟨seat, hseat⟩ := hlog.follows p hp
    exact hseat.named
  rw [process_unknownAction_iff hnamed]
  constructor
  · rintro ⟨p, m₁, k, t, henters, hk, hcomes, hid, hnone⟩
    have ht := h.sound.table (hasTable_of_comesTo henters hcomes)
    obtain ⟨hentry, hdefault⟩ := (ht.actionFor?_missing hnone).mp hid
    exact ⟨p, m₁, k, t, henters, hk, hcomes, hentry, hdefault, hnone⟩
  · rintro ⟨p, m₁, k, t, henters, hk, hcomes, hentry, hdefault, hnone⟩
    have ht := h.sound.table (hasTable_of_comesTo henters hcomes)
    have hid := (ht.actionFor?_missing hnone).mpr ⟨hentry, hdefault⟩
    exact ⟨p, m₁, k, t, henters, hk, hcomes, hid, hnone⟩

/-- In a program that is reached all actions that tables refer to exist exactly when those of all
default entries do.  Then no packet ends for want of an action.  Where they do not, a packet does
exactly when it comes to a table that has no entry for it and a default entry whose action is
missing. -/
theorem actionsExist_iff (h : g.Reached) :
    (g.ActionsExist ↔
      ∀ t, g.HasTable t → ∀ d ∈ t.default?, (g.action? d.actionId).isSome) ∧
    (g.ActionsExist → ∀ m m' id, g.process.run m ≠ .error (.unknownAction id) m') ∧
    ∀ m m' id, g.process.run m = .error (.unknownAction id) m' ↔
      ∃ p m₁ k t, g.Enters m p m₁ ∧ k < maxSteps ∧
        Pipeline.ComesTo g p k .start m₁ (.table t) m' ∧ t.entry? (t.keyOf m'.packet) = none ∧
        (∃ d ∈ t.default?, d.actionId = id) ∧ g.action? id = none := by
  refine ⟨⟨?_, ?_⟩, ?_, fun m m' id => h.unknownAction_iff⟩
  · intro hexist t ht d hd
    exact hexist t ht _ (Or.inr (Or.inr (Or.inr ⟨d, hd, rfl⟩)))
  · intro hdefaults t ht id hid
    rcases (h.sound.table ht).of_refers hid with hsome | ⟨d, hd, rfl⟩
    · exact hsome
    · exact hdefaults t ht d hd
  · intro hexist m m' id herror
    obtain ⟨p, m₁, k, t, henters, -, hcomes, -, hdefault, hnone⟩ := h.unknownAction_iff.mp herror
    have hsome := hexist t (hasTable_of_comesTo henters hcomes) id
      (Or.inr (Or.inr (Or.inr hdefault)))
    rw [hnone] at hsome
    cases hsome

/-! ### A default entry -/

/-- A document of one action and one table without key fields, whose default entry runs the action
of an id. -/
def defaultDocument (id : Nat) : Json.Value :=
  .object [("actions", .array [.object
      [("id", .ofNat 0), ("name", .string "nop"), ("primitives", .array []),
        ("runtime_data", .array [])]]),
    ("pipelines", .array [.object
      [("conditionals", .array []), ("id", .ofNat 0), ("init_table", .string "t"),
        ("name", .string "p"), ("tables", .array [.object
          [("action_ids", .array [.ofNat 0]),
            ("default_entry", .object [("action_data", .array []), ("action_id", .ofNat id)]),
            ("id", .ofNat 0), ("key", .array []), ("match_type", .string "exact"),
            ("name", .string "t")]])]])]

/-- Its program. -/
def defaultProgram (id : Int) : Program :=
  { pipelines :=
      { objects := [
          { identity := ⟨"p", 0, none⟩
            init := some ⟨0, 0⟩
            slots := [⟨0, some (.table
              { identity := ⟨"t", 0, none⟩, matchType := "exact", keyFields := [], keyJson := []
                actionIds := [0], default? := some { actionId := id, data := [] } })⟩]
            byName := [("t", ⟨0, 0⟩)] }]
        ids := ⟨1⟩ }
    actions :=
      { actions := [
          { identity := ⟨"nop", 0, none⟩, parameters := [], primitives := []
            primitivesJson := [], extra := [] }]
        ids := ⟨1⟩ }
    tableIds := ⟨1⟩ }

/-- With a default entry for the table's own action no packet ends for want of one. -/
theorem default_action_found :
    (defaultProgram 0).Reached ∧ (defaultProgram 0).ActionsExist ∧
      ∀ m m' id, (defaultProgram 0).process.run m ≠ .error (.unknownAction id) m' := by
  have hload : ofDocument {} (defaultDocument 0) = .ok (defaultProgram 0, {}) := rfl
  have hreached : (defaultProgram 0).Reached := .load hload
  have hexist : (defaultProgram 0).ActionsExist := by
    refine (actionsExist_iff hreached).1.mpr ?_
    rintro t ⟨p, hp, ht⟩ d hd
    rw [List.mem_singleton.mp hp] at ht
    cases List.mem_singleton.mp ht
    cases hd
    rfl
  exact ⟨hreached, hexist, (actionsExist_iff hreached).2.1 hexist⟩

/-- The loader accepts a default entry whose action does not exist, and every packet that comes
to its table fails. -/
theorem default_action_missing :
    (defaultProgram 99).Reached ∧ ¬(defaultProgram 99).ActionsExist ∧
      (defaultProgram 99).process.run ⟨{}, {}⟩ = .error (.unknownAction 99) ⟨{}, {}⟩ := by
  have hload : ofDocument {} (defaultDocument 99) = .ok (defaultProgram 99, {}) := rfl
  refine ⟨.load hload, fun hexist => ?_, rfl⟩
  have ht : (defaultProgram 99).HasTable
      { identity := ⟨"t", 0, none⟩, matchType := "exact", keyFields := [], keyJson := []
        actionIds := [0], default? := some { actionId := 99, data := [] } } :=
    ⟨_, List.mem_cons_self, List.mem_cons_self⟩
  have hsome := hexist _ ht 99 (Or.inr (Or.inr (Or.inr ⟨_, rfl, rfl⟩)))
  cases hsome

end Program

end LiveSwitch
