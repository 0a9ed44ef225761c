import LiveSwitch.Proofs.Pipeline.Wiring
import LiveSwitch.Proofs.Program.Packets

/-!
# Where a packet comes by

A packet that walks through a pipeline comes by one place after the other: the start, and then
one port of each node it visits.  A walk ends in a dangling edge when the edge at the place it
has come to refers to no node, and in no other case.

## Main definitions

* `Node.exit` — the port that a packet leaves a node by.
* `Pipeline.Comes` — a packet comes from one place of a pipeline to another.
* `Pipeline.ComesTo` — a packet comes to a node.
* `Pipeline.Dangles` — the edge at a place refers to no node any more.
* `Program.Enters` — a packet gets to a pipeline of a program.

## Main results

* `Pipeline.run_dangling_iff` — a walk ends in a dangling edge exactly when it comes to one.
* `Program.process_dangling_iff` — the same for the walk through all pipelines.
-/

namespace LiveSwitch

/-- The port that a packet leaves a node by. -/
def Node.exit (m : Machine) : Node → Port
  | conditional c =>
    match c.evaluate m.packet with
    | .ok b => .branch b
    | .error _ => .branch .onTrue
  | table t =>
    match t.entry? (t.keyOf m.packet) with
    | some e => t.hitPort e.actionId
    | none => t.missPort

theorem Node.exit_branch {c : Conditional} {m : Machine} {b : Branch}
    (h : c.evaluate m.packet = .ok b) : (conditional c).exit m = .branch b := by
  show (match c.evaluate m.packet with
    | .ok b => Port.branch b
    | .error _ => .branch .onTrue) = .branch b
  rw [h]

theorem Node.exit_hit {t : Table} {m : Machine} {e : TableEntry}
    (h : t.entry? (t.keyOf m.packet) = some e) : (table t).exit m = t.hitPort e.actionId := by
  show (match t.entry? (t.keyOf m.packet) with
    | some e => t.hitPort e.actionId
    | none => t.missPort) = t.hitPort e.actionId
  rw [h]

theorem Node.exit_miss {t : Table} {m : Machine} (h : t.entry? (t.keyOf m.packet) = none) :
    (table t).exit m = t.missPort := by
  show (match t.entry? (t.keyOf m.packet) with
    | some e => t.hitPort e.actionId
    | none => t.missPort) = t.missPort
  rw [h]

/-- A computation that begins with a look at the machine. -/
theorem Exec.run_get_bind {α : Type} (f : Machine → Exec α) (m : Machine) :
    (get >>= f).run m = (f m).run m :=
  rfl

theorem Exec.bind_eq_ok {α β : Type} {x : Exec α} {f : α → Exec β} {m m' : Machine} {b : β} :
    (x >>= f).run m = .ok b m' ↔ ∃ a m₁, x.run m = .ok a m₁ ∧ (f a).run m₁ = .ok b m' := by
  show EStateM.bind x f m = .ok b m' ↔ ∃ a m₁, x m = .ok a m₁ ∧ f a m₁ = .ok b m'
  unfold EStateM.bind
  cases x m with
  | ok a m₁ => simp
  | error e m₁ => simp

theorem Exec.bind_eq_error {α β : Type} {x : Exec α} {f : α → Exec β} {m m' : Machine}
    {e : RunError} : (x >>= f).run m = .error e m' ↔ x.run m = .error e m' ∨
      ∃ a m₁, x.run m = .ok a m₁ ∧ (f a).run m₁ = .error e m' := by
  show EStateM.bind x f m = .error e m' ↔
    x m = .error e m' ∨ ∃ a m₁, x m = .ok a m₁ ∧ f a m₁ = .error e m'
  unfold EStateM.bind
  cases x m with
  | ok a m₁ => simp
  | error e' m₁ => simp

theorem Table.next_of_run {g : Program} {t : Table} {m m' : Machine} {hit : Bool} {next : Edge}
    (h : (t.run g).run m = .ok (hit, next) m') :
    (Node.table t).edgeAt? ((Node.table t).exit m) = some next := by
  rw [Table.run, Exec.run_get_bind] at h
  split at h
  case h_1 e he =>
    obtain ⟨_, _, -, h⟩ := Exec.bind_eq_ok.mp h
    cases h
    rw [Node.exit_hit he]
    exact t.edgeAt?_hitPort e.actionId
  case h_2 he =>
    rw [Node.exit_miss he]
    split at h
    case h_1 d _ =>
      obtain ⟨_, _, -, h⟩ := Exec.bind_eq_ok.mp h
      cases h
      exact t.edgeAt?_missPort
    case h_2 =>
      cases h
      exact t.edgeAt?_missPort

/-- After a visit the packet follows the edge at the port that it leaves by. -/
theorem Node.next_of_visit {g : Program} {n : Node} {m m' : Machine} {step : Step} {next : Edge}
    (h : (n.visit g).run m = .ok (step, next) m') : n.edgeAt? (n.exit m) = some next := by
  cases n with
  | conditional c =>
    rw [Node.visit, Exec.run_get_bind] at h
    obtain ⟨b, m₂, hb, h⟩ := Exec.bind_eq_ok.mp h
    cases hc : c.evaluate m.packet with
    | ok b' =>
      rw [hc] at hb
      cases hb
      cases h
      rw [Node.exit_branch hc]
      rfl
    | error e =>
      rw [hc] at hb
      cases hb
  | table t =>
    rw [Node.visit] at h
    obtain ⟨⟨hit, next'⟩, m₁, hrun, h⟩ := Exec.bind_eq_ok.mp h
    cases h
    exact Table.next_of_run hrun

namespace Pipeline

variable {g : Program} {p : Pipeline}

/-- A packet that follows the edge at a place comes to another place over a number of nodes,
and so does the machine. -/
inductive Comes (g : Program) (p : Pipeline) : Nat → Place → Machine → Place → Machine → Prop
  | here (place : Place) (m : Machine) : Comes g p 0 place m place m
  | visit {k : Nat} {place place' : Place} {m m₁ m' : Machine} {r : NodeRef} {n : Node}
    {step : Step} {next : Edge} (hedge : p.edgeAt? place = some (some r))
    (hnode : p.resolve? r = some n) (hvisit : (n.visit g).run m = .ok (step, next) m₁)
    (hrest : Comes g p k (.port n.name (n.exit m)) m₁ place' m') :
    Comes g p (k + 1) place m place' m'

/-- A packet that follows the edge at a place comes to a node over a number of nodes. -/
def ComesTo (g : Program) (p : Pipeline) (k : Nat) (place : Place) (m : Machine) (n : Node)
    (m' : Machine) : Prop :=
  ∃ place' r, Comes g p k place m place' m' ∧ p.edgeAt? place' = some (some r) ∧
    p.resolve? r = some n

/-- The edge at a place refers to no node any more. -/
def Dangles (p : Pipeline) (place : Place) : Prop :=
  ∃ r, p.edgeAt? place = some (some r) ∧ p.resolve? r = none

/-- The nodes of a pipeline are found by their names. -/
def Named (p : Pipeline) : Prop := ∀ n ∈ p.nodes, p.node? n.name = some n

theorem edgeAt?_port_of_resolve? (hp : p.Named) {r : NodeRef} {n : Node}
    (hn : p.resolve? r = some n) (q : Port) : p.edgeAt? (.port n.name q) = n.edgeAt? q := by
  have hmem : n ∈ p.nodes := mem_nodes_of_resolve? hn
  rw [edgeAt?, hp n hmem, Option.bind_some]

/-- The node that a packet has visited has an edge where the packet leaves it. -/
theorem edgeAt?_of_visit (hp : p.Named) {r : NodeRef} {n : Node} (hn : p.resolve? r = some n)
    {m m₁ : Machine} {step : Step} {next : Edge}
    (hvisit : (n.visit g).run m = .ok (step, next) m₁) :
    p.edgeAt? (.port n.name (n.exit m)) = some next := by
  rw [edgeAt?_port_of_resolve? hp hn]
  exact Node.next_of_visit hvisit

/-- A walk fails when the visit of its first node or the rest of it does. -/
theorem walk_succ_eq_error {r : NodeRef} {n : Node} (hn : p.resolve? r = some n) {fuel : Nat}
    {source : String} {m m' : Machine} {err : RunError} :
    (p.walk g (fuel + 1) source (some r)).run m = .error err m' ↔
      (n.visit g).run m = .error err m' ∨ ∃ step next m₁,
        (n.visit g).run m = .ok (step, next) m₁ ∧
          (p.walk g fuel n.name next).run m₁ = .error err m' := by
  rw [walk_succ hn, Exec.bind_eq_error]
  refine or_congr_right ⟨?_, ?_⟩
  · rintro ⟨⟨step, next⟩, m₁, hvisit, h⟩
    rcases Exec.bind_eq_error.mp h with h | ⟨_, _, -, h⟩
    · exact ⟨step, next, m₁, hvisit, h⟩
    · cases h
  · rintro ⟨step, next, m₁, hvisit, h⟩
    exact ⟨(step, next), m₁, hvisit, Exec.bind_eq_error.mpr (Or.inl h)⟩

/-- Where no node follows, a packet comes no further. -/
theorem comes_stuck {place place' : Place} {k : Nat} {m m' : Machine}
    (hstuck : ∀ r n, p.edgeAt? place = some (some r) → p.resolve? r ≠ some n)
    (h : Comes g p k place m place' m') : k = 0 ∧ place' = place ∧ m' = m := by
  cases h with
  | here => exact ⟨rfl, rfl, rfl⟩
  | visit hedge hnode => exact absurd hnode (hstuck _ _ hedge)

/-- Where no node follows, a packet comes to none. -/
theorem not_comesTo {place : Place} {k : Nat} {m m' : Machine} {n : Node}
    (hstuck : ∀ r n, p.edgeAt? place = some (some r) → p.resolve? r ≠ some n) :
    ¬ComesTo g p k place m n m' := by
  rintro ⟨place', r, hcomes, he, hn⟩
  obtain ⟨-, rfl, -⟩ := comes_stuck hstuck hcomes
  exact hstuck r n he hn

/-- A packet comes to the node in front of it, or to another one once it has visited that. -/
theorem comesTo_iff {place : Place} {r : NodeRef} {n₀ : Node}
    (he : p.edgeAt? place = some (some r)) (hr : p.resolve? r = some n₀) {k : Nat} {m m' : Machine}
    {n : Node} : ComesTo g p k place m n m' ↔ (k = 0 ∧ n = n₀ ∧ m' = m) ∨
      ∃ k' step next m₁, k = k' + 1 ∧ (n₀.visit g).run m = .ok (step, next) m₁ ∧
        ComesTo g p k' (.port n₀.name (n₀.exit m)) m₁ n m' := by
  constructor
  · rintro ⟨place', r', hcomes, he', hn⟩
    cases hcomes with
    | here =>
      rw [he] at he'
      cases he'
      rw [hr] at hn
      exact Or.inl ⟨rfl, (Option.some.inj hn).symm, rfl⟩
    | @visit k' _ _ _ m₁ _ r₁ n₁ step next hedge hnode hvisit hrest =>
      rw [he] at hedge
      cases hedge
      rw [hr] at hnode
      cases hnode
      exact Or.inr ⟨k', step, next, m₁, rfl, hvisit, place', r', hrest, he', hn⟩
  · rintro (⟨rfl, rfl, rfl⟩ | ⟨k', step, next, m₁, rfl, hvisit, place', r', hcomes, he', hn⟩)
    · exact ⟨place, r, .here place _, he, hr⟩
    · exact ⟨place', r', .visit he hr hvisit hcomes, he', hn⟩

theorem not_dangles_none {place : Place} (he : p.edgeAt? place = some none) :
    ¬p.Dangles place := by
  rintro ⟨r, hr, -⟩
  rw [he] at hr
  cases hr

theorem not_dangles_some {place : Place} {r : NodeRef} {n : Node}
    (he : p.edgeAt? place = some (some r)) (hn : p.resolve? r = some n) :
    ¬p.Dangles place := by
  rintro ⟨r', hr', hnone⟩
  rw [he] at hr'
  cases hr'
  rw [hn] at hnone
  cases hnone

/-- A walk ends at once in a dangling edge when it starts at one. -/
theorem walk_dangling_here {place : Place} {r : NodeRef} (he : p.edgeAt? place = some (some r))
    (hr : p.resolve? r = none) (fuel : Nat) {m m' : Machine} {P source : String} :
    (p.walk g fuel place.source (some r)).run m = .error (.danglingEdge P source) m' ↔
      P = p.name ∧ ∃ k place', k ≤ fuel ∧ source = place'.source ∧
        Comes g p k place m place' m' ∧ p.Dangles place' := by
  rw [walk_dangling hr]
  have hstuck : ∀ r' n, p.edgeAt? place = some (some r') → p.resolve? r' ≠ some n := by
    intro r' n hr'
    rw [he] at hr'
    cases hr'
    rw [hr]
    exact nofun
  constructor
  · intro h
    cases h
    exact ⟨rfl, 0, place, Nat.zero_le fuel, rfl, Comes.here place m, r, he, hr⟩
  · rintro ⟨rfl, k, place', -, rfl, hcomes, -⟩
    obtain ⟨-, rfl, rfl⟩ := comes_stuck hstuck hcomes
    rfl

/-- A walk that starts at a null edge ends well. -/
theorem walk_null {place : Place} (he : p.edgeAt? place = some none) (fuel : Nat)
    {m m' : Machine} {P source : String} :
    (p.walk g fuel place.source none).run m = .error (.danglingEdge P source) m' ↔
      P = p.name ∧ ∃ k place', k ≤ fuel ∧ source = place'.source ∧
        Comes g p k place m place' m' ∧ p.Dangles place' := by
  constructor
  · intro h
    cases fuel <;> cases h
  · rintro ⟨-, k, place', -, -, hcomes, hdangles⟩
    have hstuck : ∀ r n, p.edgeAt? place = some (some r) → p.resolve? r ≠ some n := by
      intro r n hr
      rw [he] at hr
      cases hr
    obtain ⟨-, rfl, -⟩ := comes_stuck hstuck hcomes
    exact absurd hdangles (not_dangles_none he)

/-- The visit of a node does not end in a dangling edge. -/
theorem visit_ne_dangling (g : Program) (n : Node) {m m' : Machine} {P source : String} :
    (n.visit g).run m ≠ .error (.danglingEdge P source) m' := by
  intro h
  have hkeeps := n.keeps_visit g.stable_true m trivial
  rw [h] at hkeeps
  cases hkeeps.1

/-- A walk over a bounded number of nodes ends in a dangling edge exactly when it comes to one
within that number. -/
theorem walk_dangling_iff (hp : p.Named) {fuel : Nat} {place : Place} {e : Edge}
    (he : p.edgeAt? place = some e) {m m' : Machine} {P source : String} :
    (p.walk g fuel place.source e).run m = .error (.danglingEdge P source) m' ↔
      P = p.name ∧ ∃ k place', k ≤ fuel ∧ source = place'.source ∧
        Comes g p k place m place' m' ∧ p.Dangles place' := by
  induction fuel generalizing place e m with
  | zero =>
    cases e with
    | none => exact walk_null he 0
    | some r =>
      cases hr : p.resolve? r with
      | none => exact walk_dangling_here he hr 0
      | some n =>
        rw [walk_zero hr]
        constructor
        · intro h
          cases h
        · rintro ⟨-, k, place', hk, -, hcomes, hdangles⟩
          cases hcomes with
          | here => exact absurd hdangles (not_dangles_some he hr)
          | visit => omega
  | succ fuel ih =>
    cases e with
    | none => exact walk_null he (fuel + 1)
    | some r =>
      cases hr : p.resolve? r with
      | none => exact walk_dangling_here he hr (fuel + 1)
      | some n =>
        rw [walk_succ_eq_error hr]
        constructor
        · rintro (h | ⟨step, next, m₁, hvisit, h⟩)
          · exact absurd h (visit_ne_dangling g n)
          · -- the failure is one of the rest of the walk
            obtain ⟨hP, k, place', hk, hsource, hcomes, hdangles⟩ :=
              (ih (edgeAt?_of_visit hp hr hvisit)).mp h
            exact ⟨hP, k + 1, place', Nat.succ_le_succ hk, hsource,
              Comes.visit he hr hvisit hcomes, hdangles⟩
        · rintro ⟨hP, k, place', hk, hsource, hcomes, hdangles⟩
          cases hcomes with
          | here => exact absurd hdangles (not_dangles_some he hr)
          | @visit k _ _ _ m₁ _ r' n' step next hedge hnode hvisit hrest =>
            rw [he] at hedge
            cases hedge
            rw [hr] at hnode
            cases hnode
            have hrun := (ih (edgeAt?_of_visit hp hr hvisit)).mpr
              ⟨hP, k, place', Nat.le_of_succ_le_succ hk, hsource, hrest, hdangles⟩
            exact Or.inr ⟨step, next, m₁, hvisit, hrun⟩

/-- The walk through a pipeline ends in a dangling edge exactly when it comes to one, over as
many nodes as a packet may visit. -/
theorem run_dangling_iff (hp : p.Named) {m m' : Machine} {P source : String} :
    (p.run g).run m = .error (.danglingEdge P source) m' ↔
      P = p.name ∧ ∃ k place, k ≤ maxSteps ∧ source = place.source ∧
        Comes g p k .start m place m' ∧ p.Dangles place :=
  have he : p.edgeAt? .start = some p.init := rfl
  walk_dangling_iff hp he

end Pipeline

namespace Program

/-- A packet gets to a pipeline of a program, and the machine with it. -/
def Enters (g : Program) (m : Machine) (p : Pipeline) (m' : Machine) : Prop :=
  ∃ before after steps, g.pipelines.objects = before ++ p :: after ∧
    (before.mapM (Pipeline.run g)).run m = .ok steps m'

theorem mapM_eq_error {α β : Type} {f : α → Exec β} {l : List α} {m m' : Machine} {e : RunError} :
    (l.mapM f).run m = .error e m' ↔ ∃ before a after bs m₁, l = before ++ a :: after ∧
      (before.mapM f).run m = .ok bs m₁ ∧ (f a).run m₁ = .error e m' := by
  induction l generalizing m with
  | nil =>
    rw [List.mapM_nil]
    constructor
    · intro h
      cases h
    · rintro ⟨before, a, after, bs, m₁, hl, -⟩
      simp at hl
  | cons a l ih =>
    rw [List.mapM_cons, Exec.bind_eq_error]
    constructor
    · rintro (h | ⟨b, m₁, hb, h⟩)
      · exact ⟨[], a, l, [], m, rfl, by rw [List.mapM_nil]; rfl, h⟩
      · rcases Exec.bind_eq_error.mp h with h | ⟨_, _, -, h⟩
        · obtain ⟨before, a', after, bs, m₂, rfl, hbs, he⟩ := ih.mp h
          refine ⟨a :: before, a', after, b :: bs, m₂, rfl, ?_, he⟩
          rw [List.mapM_cons]
          exact Exec.bind_eq_ok.mpr ⟨b, m₁, hb, Exec.bind_eq_ok.mpr ⟨bs, m₂, hbs, rfl⟩⟩
        · cases h
    · rintro ⟨before, a', after, bs, m₁, hl, hbs, he⟩
      cases before with
      | nil =>
        cases hl
        rw [List.mapM_nil] at hbs
        cases hbs
        exact Or.inl he
      | cons a'' before =>
        cases hl
        rw [List.mapM_cons] at hbs
        obtain ⟨b, m₂, hb, hbs⟩ := Exec.bind_eq_ok.mp hbs
        obtain ⟨bs', m₃, hbs', hbs⟩ := Exec.bind_eq_ok.mp hbs
        cases hbs
        have hrest := ih.mpr ⟨before, a', after, bs', m₁, rfl, hbs', he⟩
        exact Or.inr ⟨b, m₂, hb, Exec.bind_eq_error.mpr (Or.inl hrest)⟩

theorem mem_of_enters {g : Program} {m m₁ : Machine} {p : Pipeline} (h : g.Enters m p m₁) :
    p ∈ g.pipelines.objects := by
  obtain ⟨before, after, _, hobjects, -⟩ := h
  rw [hobjects]
  exact List.mem_append_right before List.mem_cons_self

/-- A packet fails exactly when it gets to a pipeline and fails there. -/
theorem process_eq_error {g : Program} {m m' : Machine} {e : RunError} :
    g.process.run m = .error e m' ↔ ∃ p m₁, g.Enters m p m₁ ∧ (p.run g).run m₁ = .error e m' := by
  rw [process, Exec.bind_eq_error]
  constructor
  · rintro (h | ⟨_, _, -, h⟩)
    · obtain ⟨before, p, after, steps, m₁, hobjects, hbefore, hrun⟩ := mapM_eq_error.mp h
      exact ⟨p, m₁, ⟨before, after, steps, hobjects, hbefore⟩, hrun⟩
    · cases h
  · rintro ⟨p, m₁, ⟨before, after, steps, hobjects, hbefore⟩, hrun⟩
    exact Or.inl (mapM_eq_error.mpr ⟨before, p, after, steps, m₁, hobjects, hbefore, hrun⟩)

/-- A packet ends in a dangling edge exactly when it gets to a pipeline and comes to one
there. -/
theorem process_dangling_iff {g : Program} (hg : ∀ p ∈ g.pipelines.objects, p.Named)
    {m m' : Machine} {P source : String} :
    g.process.run m = .error (.danglingEdge P source) m' ↔
      ∃ p m₁ k place, g.Enters m p m₁ ∧ P = p.name ∧ k ≤ maxSteps ∧ source = place.source ∧
        Pipeline.Comes g p k .start m₁ place m' ∧ p.Dangles place := by
  rw [process_eq_error]
  constructor
  · rintro ⟨p, m₁, henters, hrun⟩
    obtain ⟨hP, k, place, hk, hsource, hcomes, hdangles⟩ :=
      (Pipeline.run_dangling_iff (hg p (mem_of_enters henters))).mp hrun
    exact ⟨p, m₁, k, place, henters, hP, hk, hsource, hcomes, hdangles⟩
  · rintro ⟨p, m₁, k, place, henters, hP, hk, hsource, hcomes, hdangles⟩
    exact ⟨p, m₁, henters, (Pipeline.run_dangling_iff (hg p (mem_of_enters henters))).mpr
      ⟨hP, k, place, hk, hsource, hcomes, hdangles⟩⟩

end Program

end LiveSwitch
