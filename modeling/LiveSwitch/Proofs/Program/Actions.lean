import LiveSwitch.Proofs.Program.Walks

/-!
# Packets that run a missing action

The failures of a walk are its own, when an edge dangles or there are too many steps, or they are
failures of a node that the packet comes to.  A node fails for want of an action only if it is a
table and the action is the one that the table has for the packet: the action of the entry
of its key, or that of the default entry when there is no such entry.

## Main definitions

* `Table.actionFor?` — the action that a table runs for a packet.

## Main results

* `Pipeline.walk_inner_iff`, `Program.process_inner_iff` — a packet ends in the failure of a node
  exactly when it comes to a node that fails so.
* `Program.process_unknownAction_iff` — a packet ends for want of an action exactly when it comes
  to a table whose action for it is missing.
-/

namespace LiveSwitch

/-! ### Failures of nodes -/

namespace Pipeline

variable {g : Program} {p : Pipeline}

/-- A walk over a bounded number of nodes ends in the failure of a node exactly when it comes,
within that number, to a node that fails so. -/
theorem walk_inner_iff (hp : p.Named) {err : RunError} (hinner : err.Inner) {fuel : Nat}
    {place : Place} {e : Edge} (he : p.edgeAt? place = some e) {m m' : Machine} :
    (p.walk g fuel place.source e).run m = .error err m' ↔
      ∃ k n m₁, k < fuel ∧ ComesTo g p k place m n m₁ ∧ (n.visit g).run m₁ = .error err m' := by
  -- where no node follows, the walk ends well or in a failure of its own
  have hstuck : ∀ {fuel place m}, (∀ r n, p.edgeAt? place = some (some r) →
      p.resolve? r ≠ some n) → ¬∃ k n m₁, k < fuel ∧ ComesTo g p k place m n m₁ ∧
        (n.visit g).run m₁ = .error err m' := by
    rintro fuel place m hnone ⟨k, n, m₁, -, hcomes, -⟩
    exact not_comesTo hnone hcomes
  induction fuel generalizing place e m with
  | zero =>
    refine iff_of_false (fun h => ?_) fun ⟨k, _, _, hk, _⟩ => Nat.not_lt_zero k hk
    cases e with
    | none => cases h
    | some r =>
      cases hr : p.resolve? r with
      | none =>
        rw [walk_dangling hr] at h
        cases h
        exact hinner
      | some n =>
        rw [walk_zero hr] at h
        cases h
        exact hinner
  | succ fuel ih =>
    cases e with
    | none =>
      refine iff_of_false (fun h => by cases h) (hstuck fun r n hr => ?_)
      rw [he] at hr
      cases hr
    | some r =>
      cases hr : p.resolve? r with
      | none =>
        refine iff_of_false (fun h => ?_) (hstuck fun r' n hr' => ?_)
        · rw [walk_dangling hr] at h
          cases h
          exact hinner
        · rw [he] at hr'
          cases hr'
          rw [hr]
          exact nofun
      | some n =>
        rw [walk_succ_eq_error hr]
        constructor
        · rintro (h | ⟨step, next, m₁, hvisit, h⟩)
          · exact ⟨0, n, m, Nat.succ_pos fuel, (comesTo_iff he hr).mpr (Or.inl ⟨rfl, rfl, rfl⟩), h⟩
          · obtain ⟨k, n', m₂, hk, hcomes, hfail⟩ := (ih (edgeAt?_of_visit hp hr hvisit)).mp h
            have hcomes' := (comesTo_iff he hr).mpr
              (Or.inr ⟨k, step, next, m₁, rfl, hvisit, hcomes⟩)
            exact ⟨k + 1, n', m₂, Nat.succ_lt_succ hk, hcomes', hfail⟩
        · rintro ⟨k, n', m₂, hk, hcomes, hfail⟩
          rcases (comesTo_iff he hr).mp hcomes with
            ⟨rfl, rfl, rfl⟩ | ⟨k', step, next, m₁, rfl, hvisit, hcomes⟩
          · exact Or.inl hfail
          · have hrest := (ih (edgeAt?_of_visit hp hr hvisit)).mpr
              ⟨k', n', m₂, Nat.lt_of_succ_lt_succ hk, hcomes, hfail⟩
            exact Or.inr ⟨step, next, m₁, hvisit, hrest⟩

end Pipeline

namespace Program

variable {g : Program}

/-- A packet ends in the failure of a node exactly when it gets to a pipeline and comes there to
a node that fails so. -/
theorem process_inner_iff (hg : ∀ p ∈ g.pipelines.objects, p.Named) {err : RunError}
    (hinner : err.Inner) {m m' : Machine} : g.process.run m = .error err m' ↔
      ∃ p m₁ k n m₂, g.Enters m p m₁ ∧ k < maxSteps ∧ Pipeline.ComesTo g p k .start m₁ n m₂ ∧
        (n.visit g).run m₂ = .error err m' := by
  have hrun : ∀ {p m₁}, g.Enters m p m₁ → ((p.run g).run m₁ = .error err m' ↔
      ∃ k n m₂, k < maxSteps ∧ Pipeline.ComesTo g p k .start m₁ n m₂ ∧
        (n.visit g).run m₂ = .error err m') := by
    intro p m₁ henters
    have he : p.edgeAt? .start = some p.init := rfl
    exact Pipeline.walk_inner_iff (hg p (mem_of_enters henters)) hinner he
  rw [process_eq_error]
  constructor
  · rintro ⟨p, m₁, henters, h⟩
    obtain ⟨k, n, m₂, hk, hcomes, hfail⟩ := (hrun henters).mp h
    exact ⟨p, m₁, k, n, m₂, henters, hk, hcomes, hfail⟩
  · rintro ⟨p, m₁, k, n, m₂, henters, hk, hcomes, hfail⟩
    exact ⟨p, m₁, henters, (hrun henters).mpr ⟨k, n, m₂, hk, hcomes, hfail⟩⟩

end Program

/-! ### Missing actions -/

/-- The action that a table runs for a packet: that of the entry of its key, or else that of the
default entry. -/
def Table.actionFor? (t : Table) (p : Packet) : Option Int :=
  match t.entry? (t.keyOf p) with
  | some e => some e.actionId
  | none => t.default?.map DefaultEntry.actionId

/-- No primitive of an action fails for want of an action. -/
theorem Action.run_ne_unknownAction (g : Program) (data : List UInt64) (a : Action)
    {m m' : Machine} {id : Int} : (a.run g data).run m ≠ .error (.unknownAction id) m' := by
  intro h
  have hkeeps := a.keeps_run g.stable_true data m trivial
  rw [h] at hkeeps
  exact hkeeps.1

theorem Program.runAction_unknownAction_iff {g : Program} {id id' : Int} {data : List UInt64}
    {m m' : Machine} : (g.runAction id' data).run m = .error (.unknownAction id) m' ↔
      id' = id ∧ g.action? id = none ∧ m' = m := by
  rw [Program.runAction, Exec.bind_eq_error]
  cases ha : g.action? id' with
  | none =>
    constructor
    · rintro (h | ⟨_, _, h, -⟩)
      · cases h
        exact ⟨rfl, ha, rfl⟩
      · cases h
    · rintro ⟨rfl, -, rfl⟩
      exact Or.inl rfl
  | some a =>
    constructor
    · rintro (h | ⟨_, _, h, hrun⟩)
      · cases h
      · cases h
        exact absurd hrun (a.run_ne_unknownAction g data)
    · rintro ⟨rfl, hnone, -⟩
      rw [ha] at hnone
      cases hnone

theorem Table.run_unknownAction_iff {g : Program} {t : Table} {m m' : Machine} {id : Int} :
    (t.run g).run m = .error (.unknownAction id) m' ↔
      t.actionFor? m.packet = some id ∧ g.action? id = none ∧ m' = m := by
  -- what follows the action cannot fail
  have hbind : ∀ (id' : Int) (data : List UInt64) (x : Bool × Edge),
      (do g.runAction id' data; return x : Exec (Bool × Edge)).run m =
        .error (.unknownAction id) m' ↔ id' = id ∧ g.action? id = none ∧ m' = m := by
    intro id' data x
    rw [Exec.bind_eq_error, Program.runAction_unknownAction_iff]
    constructor
    · rintro (h | ⟨_, _, -, h⟩)
      · exact h
      · cases h
    · exact Or.inl
  rw [Table.run, Exec.run_get_bind, actionFor?]
  cases t.entry? (t.keyOf m.packet) with
  | some e =>
    dsimp only
    rw [hbind, Option.some.injEq]
  | none =>
    dsimp only
    cases t.default? with
    | some d =>
      dsimp only
      rw [hbind, Option.map_some, Option.some.injEq]
    | none =>
      dsimp only
      constructor
      · intro h
        cases h
      · rintro ⟨h, -⟩
        cases h

theorem Node.visit_unknownAction_iff {g : Program} {n : Node} {m m' : Machine} {id : Int} :
    (n.visit g).run m = .error (.unknownAction id) m' ↔
      ∃ t, n = table t ∧ t.actionFor? m.packet = some id ∧ g.action? id = none ∧ m' = m := by
  cases n with
  | conditional c =>
    constructor
    · intro h
      rw [visit, Exec.run_get_bind] at h
      rcases Exec.bind_eq_error.mp h with h | ⟨b, m₂, -, h⟩
      · cases hc : c.evaluate m.packet with
        | ok b =>
          rw [hc] at h
          cases h
        | error e =>
          rw [hc] at h
          cases h
          exact (c.ofPrimitive_evaluate hc).elim
      · cases h
    · rintro ⟨t, h, -⟩
      cases h
  | table t =>
    rw [visit, Exec.bind_eq_error, Table.run_unknownAction_iff]
    constructor
    · rintro (h | ⟨_, _, -, h⟩)
      · exact ⟨t, rfl, h⟩
      · cases h
    · rintro ⟨t', h, hrest⟩
      cases h
      exact Or.inl hrest

/-- A packet ends for want of an action exactly when it comes to a table whose action for it is
missing. -/
theorem Program.process_unknownAction_iff {g : Program}
    (hg : ∀ p ∈ g.pipelines.objects, p.Named) {m m' : Machine} {id : Int} :
    g.process.run m = .error (.unknownAction id) m' ↔
      ∃ p m₁ k t, g.Enters m p m₁ ∧ k < maxSteps ∧
        Pipeline.ComesTo g p k .start m₁ (.table t) m' ∧ t.actionFor? m'.packet = some id ∧
        g.action? id = none := by
  have hinner : (RunError.unknownAction id).Inner := trivial
  rw [process_inner_iff hg hinner]
  constructor
  · rintro ⟨p, m₁, k, n, m₂, henters, hk, hcomes, hfail⟩
    obtain ⟨t, rfl, hid, hnone, rfl⟩ := Node.visit_unknownAction_iff.mp hfail
    exact ⟨p, m₁, k, t, henters, hk, hcomes, hid, hnone⟩
  · rintro ⟨p, m₁, k, t, henters, hk, hcomes, hid, hnone⟩
    exact ⟨p, m₁, k, .table t, m', henters, hk, hcomes,
      Node.visit_unknownAction_iff.mpr ⟨t, rfl, hid, hnone, rfl⟩⟩

end LiveSwitch
