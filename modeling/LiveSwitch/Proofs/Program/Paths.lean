import LiveSwitch.Proofs.Program.Walks

/-!
# The paths of packets

The walk through a pipeline, told without its loop: at each node a packet runs an action or tests
a condition and then follows one edge, and a path is what it goes through from one edge to another.
A walk goes along its path until the path ends, breaks off at a reference to no node, goes on to
one node too many, or comes to a node that fails.  So the packet and the register cells are changed
by the nodes on the path, in their order, and by nothing else.

## Main definitions

* `Program.Acts`, `Program.ActFails` — an action goes through, or stops at one of its primitives.
* `Table.Selects` — the edge that a packet follows after a hit or a miss.
* `Node.Passes`, `Node.Fails` — a packet gets through a node, or fails there.
* `Pipeline.Path` — a packet gets from one edge to another.
* `Pipeline.Ends` — how a walk over a bounded number of nodes ends.

## Main results

* `Primitive.whole_run` — a primitive that fails changes nothing.
* `Node.passes_or_fails` — a packet gets through a node or fails there.
* `Node.visit_eq_ok`, `Node.visit_eq_error` — the step of a walk.
* `Pipeline.Path.walk_eq` — a walk goes along a path.
* `Pipeline.walk_eq_iff` — a walk ends in the way that its path says.
* `Pipeline.run_eq_bounded_walk` — the same for the walk through a pipeline, case by case.
-/

namespace LiveSwitch

variable {g : Program}

/-! ### Computations that fail -/

namespace Exec

variable {α β : Type} {m m' : Machine} {e : RunError}

/-- A computation that only looks at the machine. -/
def Reads (x : Exec α) : Prop :=
  ∀ m, (∃ a, x.run m = .ok a m) ∨ ∃ e, x.run m = .error e m

/-- A computation that changes nothing when it fails. -/
def Whole (x : Exec α) : Prop := ∀ {m m' e}, x.run m = .error e m' → m' = m

theorem Reads.pure (a : α) : Reads (Pure.pure a : Exec α) := fun _ => Or.inl ⟨a, rfl⟩

theorem Reads.throw (e : RunError) : Reads (MonadExcept.throw e : Exec α) :=
  fun _ => Or.inr ⟨e, rfl⟩

theorem Reads.lift (x : Except RunError α) : Reads (lift x) := by
  cases x with
  | ok a => exact .pure a
  | error e => exact .throw e

theorem Reads.orFail (e : RunError) (x? : Option α) : Reads (orFail e x?) := by
  cases x? with
  | some a => exact .pure a
  | none => exact .throw e

theorem Reads.whole {x : Exec α} (hx : Reads x) : Whole x := by
  intro m m' e h
  obtain ⟨a, ha⟩ | ⟨e', he⟩ := hx m
  · rw [ha] at h
    cases h
  · rw [he] at h
    cases h
    rfl

theorem Whole.get_bind {f : Machine → Exec α} (hf : ∀ m, Whole (f m)) : Whole (get >>= f) := by
  intro m m' e h
  rw [run_get_bind] at h
  exact hf m h

theorem Whole.bind {x : Exec α} {f : α → Exec β} (hx : Reads x) (hf : ∀ a, Whole (f a)) :
    Whole (x >>= f) := by
  intro m m' e h
  obtain h | ⟨a, m₁, ha, h⟩ := bind_eq_error.mp h
  · exact hx.whole h
  · obtain ⟨a', ha'⟩ | ⟨e', he'⟩ := hx m
    · rw [ha'] at ha
      cases ha
      exact hf a h
    · rw [he'] at ha
      cases ha

theorem Whole.modify (f : Machine → Machine) : Whole (modify f : Exec Unit) := nofun

theorem Whole.set (m : Machine) : Whole (MonadStateOf.set m : Exec PUnit) := nofun

/-- A sequence of computations fails where one of them does. -/
theorem forM_eq_error {f : α → Exec PUnit} {l : List α} : (l.forM f).run m = .error e m' ↔
    ∃ before a after m₁, l = before ++ a :: after ∧
      (before.forM f).run m = .ok ⟨⟩ m₁ ∧ (f a).run m₁ = .error e m' := by
  simp only [List.forM_eq_forM]
  induction l generalizing m with
  | nil =>
    constructor
    · intro h
      cases h
    · rintro ⟨before, a, after, m₁, hl, -⟩
      simp at hl
  | cons a l ih =>
    rw [List.forM_cons, bind_eq_error]
    constructor
    · rintro (h | ⟨⟨⟩, m₁, ha, h⟩)
      · exact ⟨[], a, l, m, rfl, rfl, h⟩
      · obtain ⟨before, b, after, m₂, rfl, hbefore, he⟩ := ih.mp h
        refine ⟨a :: before, b, after, m₂, rfl, ?_, he⟩
        rw [List.forM_cons]
        exact bind_eq_ok.mpr ⟨⟨⟩, m₁, ha, hbefore⟩
    · rintro ⟨before, b, after, m₁, hl, hbefore, he⟩
      cases before with
      | nil =>
        cases hl
        cases hbefore
        exact Or.inl he
      | cons c before =>
        cases hl
        rw [List.forM_cons] at hbefore
        obtain ⟨⟨⟩, m₂, hc, hbefore⟩ := bind_eq_ok.mp hbefore
        exact Or.inr ⟨⟨⟩, m₂, hc, ih.mpr ⟨before, b, after, m₁, rfl, hbefore, he⟩⟩

end Exec

open Exec

theorem Expr.reads_run (data : List UInt64) (e : Expr) : Reads (e.run data) :=
  fun m => Reads.lift (e.eval m.packet data) m

/-- A primitive that fails changes nothing. -/
theorem Primitive.whole_run (data : List UInt64) (q : Primitive) : Whole (q.run g data) := by
  cases q with
  | assign target value => exact Whole.bind (value.reads_run data) fun _ => Whole.modify _
  | add target value | subtract target value =>
    exact Whole.get_bind fun _ => Whole.bind (value.reads_run data) fun _ => Whole.modify _
  | registerRead target array index =>
    refine Whole.bind (Reads.orFail _ _) fun a => Whole.bind (index.reads_run data) fun i => ?_
    exact Whole.get_bind fun m => Whole.bind (Reads.lift _) fun _ => Whole.modify _
  | registerWrite array index value =>
    refine Whole.bind (Reads.orFail _ _) fun a => Whole.bind (index.reads_run data) fun i => ?_
    refine Whole.bind (value.reads_run data) fun v => Whole.get_bind fun m => ?_
    exact Whole.bind (Reads.lift _) fun _ => Whole.set _
  | hashOffset target base calculation size =>
    refine Whole.bind (Reads.orFail _ _) fun c => Whole.bind (base.reads_run data) fun base => ?_
    refine Whole.bind (size.reads_run data) fun size => ?_
    split
    · exact Whole.bind (Reads.throw _) fun _ => Whole.get_bind fun _ => Whole.modify _
    · exact Whole.get_bind fun _ => Whole.modify _
  | drop => exact Whole.modify _
  | skip => exact (Reads.pure _).whole

/-! ### Actions -/

namespace Program

variable {id : Int} {data : List UInt64} {m m' : Machine} {e : RunError}

/-- The action of an id goes through. -/
def Acts (g : Program) (id : Int) (data : List UInt64) (m m' : Machine) : Prop :=
  ∃ a, g.action? id = some a ∧ (a.primitives.forM (Primitive.run g data)).run m = .ok ⟨⟩ m'

/-- The action of an id fails: there is none, or one of its primitives fails and changes nothing,
after the ones ahead of it went through. -/
inductive ActFails (g : Program) (id : Int) (data : List UInt64) (m : Machine) :
    RunError → Machine → Prop where
  | unknown (h : g.action? id = none) : ActFails g id data m (.unknownAction id) m
  | primitive {a : Action} {before after : List Primitive} {q : Primitive} {e : RunError}
    {m' : Machine} (h : g.action? id = some a) (hsplit : a.primitives = before ++ q :: after)
    (hbefore : (before.forM (Primitive.run g data)).run m = .ok ⟨⟩ m')
    (hfails : (q.run g data).run m' = .error e m') : ActFails g id data m e m'

theorem runAction_eq_ok : (g.runAction id data).run m = .ok ⟨⟩ m' ↔ g.Acts id data m m' := by
  rw [runAction, Acts, Exec.bind_eq_ok]
  cases g.action? id with
  | none =>
    constructor
    · rintro ⟨_, _, h, -⟩
      cases h
    · rintro ⟨_, h, -⟩
      cases h
  | some a =>
    constructor
    · rintro ⟨_, _, hget, hrun⟩
      cases hget
      exact ⟨a, rfl, hrun⟩
    · rintro ⟨_, hget, hrun⟩
      cases hget
      exact ⟨a, m, rfl, hrun⟩

theorem runAction_eq_error :
    (g.runAction id data).run m = .error e m' ↔ g.ActFails id data m e m' := by
  rw [runAction, Exec.bind_eq_error]
  constructor
  · intro h
    cases ha : g.action? id with
    | none =>
      rw [ha] at h
      obtain h | ⟨_, _, h, -⟩ := h
      · cases h
        exact .unknown ha
      · cases h
    | some a =>
      rw [ha] at h
      obtain h | ⟨_, _, hget, hrun⟩ := h
      · cases h
      · cases hget
        obtain ⟨before, q, after, m₁, hsplit, hbefore, hfails⟩ := forM_eq_error.mp hrun
        obtain rfl := q.whole_run data hfails
        exact .primitive ha hsplit hbefore hfails
  · rintro (ha | ⟨ha, hsplit, hbefore, hfails⟩)
    · rw [ha]
      exact Or.inl rfl
    · rw [ha]
      exact Or.inr ⟨_, m, rfl, forM_eq_error.mpr ⟨_, _, _, _, hsplit, hbefore, hfails⟩⟩

/-- The action of an id goes through or fails. -/
theorem acts_or_fails (g : Program) (id : Int) (data : List UInt64) (m : Machine) :
    (∃ m', g.Acts id data m m') ∨ ∃ e m', g.ActFails id data m e m' := by
  cases h : (g.runAction id data).run m with
  | ok _ m' => exact Or.inl ⟨m', runAction_eq_ok.mp h⟩
  | error e m' => exact Or.inr ⟨e, m', runAction_eq_error.mp h⟩

end Program

/-! ### Nodes -/

/-- The edge that a packet follows: after a hit that ran an action the hit edge, if there is one,
or else the edge of the action, if it has one, or else the base edge; after a miss the miss edge, if
there is one, or else the base edge. -/
inductive Table.Selects (t : Table) : Option Int → Edge → Prop where
  | hit {id : Int} {e : Edge} (h : t.hitNext? = some e) : Selects t (some id) e
  | action {id : Int} {e : Edge} (h : t.hitNext? = none) (ha : t.nextOf? id = some e) :
    Selects t (some id) e
  | unmapped {id : Int} (h : t.hitNext? = none) (ha : t.nextOf? id = none) :
    Selects t (some id) t.baseNext
  | miss {e : Edge} (h : t.missNext? = some e) : Selects t none e
  | base (h : t.missNext? = none) : Selects t none t.baseNext

theorem Conditional.evaluate_of_none {c : Conditional} (h : c.condition? = none) (p : Packet) :
    c.evaluate p = .ok .onTrue := by
  rw [evaluate, h]

theorem Conditional.evaluate_of_some {c : Conditional} {condition : Condition}
    (h : c.condition? = some condition) (p : Packet) :
    c.evaluate p = (condition.expr.test p []).map Branch.ofTruth := by
  rw [evaluate, h]
  dsimp only
  cases condition.expr.test p [] <;> rfl

theorem Table.selects_some {t : Table} {id : Int} {e : Edge} :
    t.Selects (some id) e ↔ t.afterHit id = e := by
  rw [afterHit]
  constructor
  · intro h
    cases h with
    | hit h => rw [h]
    | action h ha | unmapped h ha =>
      rw [h, ha]
      rfl
  · rintro rfl
    cases h : t.hitNext? with
    | some e => exact .hit h
    | none =>
      cases ha : t.nextOf? id with
      | some e => exact .action h ha
      | none => exact .unmapped h ha

theorem Table.selects_none {t : Table} {e : Edge} : t.Selects none e ↔ t.afterMiss = e := by
  rw [afterMiss]
  constructor
  · intro h
    cases h with
    | miss h | base h =>
      rw [h]
      rfl
  · rintro rfl
    cases h : t.missNext? with
    | some e => exact .miss h
    | none => exact .base h

/-- The name of the node that a packet visited. -/
def Step.name : Step → String
  | conditional name _ | table name _ => name

namespace Node

/-- A packet gets through a node: what step it makes, which edge it follows and what the machine is
afterwards. -/
inductive Passes (g : Program) : Node → Machine → Step → Edge → Machine → Prop where
  | unconditioned {c : Conditional} {m : Machine} (h : c.condition? = none) :
    Passes g (.conditional c) m (.conditional c.identity.name .onTrue) c.trueNext m
  | holds {c : Conditional} {condition : Condition} {m : Machine}
    (h : c.condition? = some condition) (htest : condition.expr.test m.packet [] = .ok true) :
    Passes g (.conditional c) m (.conditional c.identity.name .onTrue) c.trueNext m
  | refuted {c : Conditional} {condition : Condition} {m : Machine}
    (h : c.condition? = some condition) (htest : condition.expr.test m.packet [] = .ok false) :
    Passes g (.conditional c) m (.conditional c.identity.name .onFalse) c.falseNext m
  | hit {t : Table} {entry : TableEntry} {m m' : Machine} {next : Edge}
    (h : t.entry? (t.keyOf m.packet) = some entry)
    (hact : g.Acts entry.actionId entry.data m m')
    (hnext : t.Selects (some entry.actionId) next) :
    Passes g (.table t) m (.table t.name true) next m'
  | default {t : Table} {d : DefaultEntry} {m m' : Machine} {next : Edge}
    (h : t.entry? (t.keyOf m.packet) = none) (hd : t.default? = some d)
    (hact : g.Acts d.actionId d.data m m') (hnext : t.Selects none next) :
    Passes g (.table t) m (.table t.name false) next m'
  | noDefault {t : Table} {m : Machine} {next : Edge}
    (h : t.entry? (t.keyOf m.packet) = none) (hd : t.default? = none)
    (hnext : t.Selects none next) : Passes g (.table t) m (.table t.name false) next m

/-- A packet fails at a node: its condition cannot be evaluated, or the action of the entry found
or of the default entry fails. -/
inductive Fails (g : Program) : Node → Machine → RunError → Machine → Prop where
  | condition {c : Conditional} {condition : Condition} {m : Machine} {e : RunError}
    (h : c.condition? = some condition) (htest : condition.expr.test m.packet [] = .error e) :
    Fails g (.conditional c) m e m
  | hit {t : Table} {entry : TableEntry} {m m' : Machine} {e : RunError}
    (h : t.entry? (t.keyOf m.packet) = some entry)
    (hact : g.ActFails entry.actionId entry.data m e m') : Fails g (.table t) m e m'
  | default {t : Table} {d : DefaultEntry} {m m' : Machine} {e : RunError}
    (h : t.entry? (t.keyOf m.packet) = none) (hd : t.default? = some d)
    (hact : g.ActFails d.actionId d.data m e m') : Fails g (.table t) m e m'

theorem visit_conditional (c : Conditional) (m : Machine) :
    ((conditional c).visit g).run m = match c.evaluate m.packet with
      | .ok b => .ok (.conditional c.identity.name b, c.next b) m
      | .error e => .error e m := by
  rw [visit, Exec.run_get_bind]
  cases c.evaluate m.packet <;> rfl

/-- A visit of a table runs the action of the entry found or of the default entry. -/
theorem visit_table (t : Table) (m : Machine) :
    ((table t).visit g).run m = match t.entry? (t.keyOf m.packet) with
      | some entry =>
        match (g.runAction entry.actionId entry.data).run m with
        | .ok _ m' => .ok (.table t.name true, t.afterHit entry.actionId) m'
        | .error e m' => .error e m'
      | none =>
        match t.default? with
        | some d =>
          match (g.runAction d.actionId d.data).run m with
          | .ok _ m' => .ok (.table t.name false, t.afterMiss) m'
          | .error e m' => .error e m'
        | none => .ok (.table t.name false, t.afterMiss) m := by
  rw [visit, EStateM.run_bind, Table.run, Exec.run_get_bind]
  cases t.entry? (t.keyOf m.packet) with
  | some entry =>
    dsimp only
    rw [EStateM.run_bind]
    cases (g.runAction entry.actionId entry.data).run m <;> rfl
  | none =>
    dsimp only
    cases t.default? with
    | some d =>
      dsimp only
      rw [EStateM.run_bind]
      cases (g.runAction d.actionId d.data).run m <;> rfl
    | none => rfl

theorem Passes.visit_eq {n : Node} {m m' : Machine} {step : Step} {next : Edge}
    (h : n.Passes g m step next m') : (n.visit g).run m = .ok (step, next) m' := by
  cases h with
  | unconditioned hc =>
    rw [visit_conditional, Conditional.evaluate_of_none hc]
    rfl
  | holds hc htest | refuted hc htest =>
    rw [visit_conditional, Conditional.evaluate_of_some hc, htest]
    rfl
  | hit he hact hnext =>
    rw [visit_table, he]
    dsimp only
    rw [Program.runAction_eq_ok.mpr hact, Table.selects_some.mp hnext]
  | default he hd hact hnext =>
    rw [visit_table, he, hd]
    dsimp only
    rw [Program.runAction_eq_ok.mpr hact, Table.selects_none.mp hnext]
  | noDefault he hd hnext => rw [visit_table, he, hd, Table.selects_none.mp hnext]

theorem Fails.visit_eq {n : Node} {m m' : Machine} {e : RunError} (h : n.Fails g m e m') :
    (n.visit g).run m = .error e m' := by
  cases h with
  | condition hc htest =>
    rw [visit_conditional, Conditional.evaluate_of_some hc, htest]
    rfl
  | hit he hact =>
    rw [visit_table, he]
    dsimp only
    rw [Program.runAction_eq_error.mpr hact]
  | default he hd hact =>
    rw [visit_table, he, hd]
    dsimp only
    rw [Program.runAction_eq_error.mpr hact]

/-- A packet gets through a node or fails there. -/
theorem passes_or_fails (g : Program) (n : Node) (m : Machine) :
    (∃ step next m', n.Passes g m step next m') ∨ ∃ e m', n.Fails g m e m' := by
  cases n with
  | conditional c =>
    cases hc : c.condition? with
    | none => exact Or.inl ⟨_, _, m, .unconditioned hc⟩
    | some condition =>
      cases htest : condition.expr.test m.packet [] with
      | error e => exact Or.inr ⟨e, m, .condition hc htest⟩
      | ok b =>
        cases b with
        | true => exact Or.inl ⟨_, _, m, .holds hc htest⟩
        | false => exact Or.inl ⟨_, _, m, .refuted hc htest⟩
  | table t =>
    cases he : t.entry? (t.keyOf m.packet) with
    | some entry =>
      obtain ⟨m', hact⟩ | ⟨e, m', hact⟩ := g.acts_or_fails entry.actionId entry.data m
      · exact Or.inl ⟨_, _, m', .hit he hact (Table.selects_some.mpr rfl)⟩
      · exact Or.inr ⟨e, m', .hit he hact⟩
    | none =>
      cases hd : t.default? with
      | some d =>
        obtain ⟨m', hact⟩ | ⟨e, m', hact⟩ := g.acts_or_fails d.actionId d.data m
        · exact Or.inl ⟨_, _, m', .default he hd hact (Table.selects_none.mpr rfl)⟩
        · exact Or.inr ⟨e, m', .default he hd hact⟩
      | none => exact Or.inl ⟨_, _, m, .noDefault he hd (Table.selects_none.mpr rfl)⟩

/-- A visit succeeds where the packet gets through the node. -/
theorem visit_eq_ok {n : Node} {m m' : Machine} {step : Step} {next : Edge} :
    (n.visit g).run m = .ok (step, next) m' ↔ n.Passes g m step next m' := by
  refine ⟨fun h => ?_, Passes.visit_eq⟩
  obtain ⟨step', next', m₁, hpasses⟩ | ⟨e, m₁, hfails⟩ := n.passes_or_fails g m
  · cases h.symm.trans hpasses.visit_eq
    exact hpasses
  · cases h.symm.trans hfails.visit_eq

/-- A visit fails where the packet fails at the node. -/
theorem visit_eq_error {n : Node} {m m' : Machine} {e : RunError} :
    (n.visit g).run m = .error e m' ↔ n.Fails g m e m' := by
  refine ⟨fun h => ?_, Fails.visit_eq⟩
  obtain ⟨step, next, m₁, hpasses⟩ | ⟨e', m₁, hfails⟩ := n.passes_or_fails g m
  · cases h.symm.trans hpasses.visit_eq
  · cases h.symm.trans hfails.visit_eq
    exact hfails

/-- What a node fails with is neither a dangling edge nor too many steps. -/
theorem Fails.inner {n : Node} {m m' : Machine} {e : RunError} (h : n.Fails g m e m') :
    e.Inner := by
  have hkeeps := n.keeps_visit g.stable_true m trivial
  rw [h.visit_eq] at hkeeps
  exact hkeeps.1

theorem Passes.name_step {n : Node} {m m' : Machine} {step : Step} {next : Edge}
    (h : n.Passes g m step next m') : step.name = n.name := by
  cases h <;> rfl

end Node

/-! ### Paths -/

namespace Pipeline

variable {p : Pipeline}

/-- A packet at an edge gets to another edge through the nodes of some steps, one after the
other, and so does the machine. -/
inductive Path (g : Program) (p : Pipeline) :
    Edge → Machine → List Step → Edge → Machine → Prop where
  | here (e : Edge) (m : Machine) : Path g p e m [] e m
  | visit {r : NodeRef} {n : Node} {m m₁ m' : Machine} {step : Step} {steps : List Step}
    {next e : Edge} (hnode : p.resolve? r = some n) (hpass : n.Passes g m step next m₁)
    (hrest : Path g p next m₁ steps e m') : Path g p (some r) m (step :: steps) e m'

/-- The name of the node that was visited last, or else that of the source. -/
def lastVisited (source : String) (steps : List Step) : String :=
  (steps.map Step.name).getLastD source

/-- How a walk over at most `limit` nodes ends: at a null edge; at a reference to no node; at one
node too many; or at a node where the packet fails. -/
inductive Ends (g : Program) (p : Pipeline) (limit : Nat) (source : String) (e : Edge)
    (m : Machine) : EStateM.Result RunError Machine (List Step) → Prop where
  | ended {steps : List Step} {m' : Machine} (hpath : Path g p e m steps none m')
    (hlength : steps.length ≤ limit) : Ends g p limit source e m (.ok steps m')
  | dangling {steps : List Step} {r : NodeRef} {m' : Machine}
    (hpath : Path g p e m steps (some r) m') (hgone : p.resolve? r = none)
    (hlength : steps.length ≤ limit) :
    Ends g p limit source e m (.error (.danglingEdge p.name (lastVisited source steps)) m')
  | tooMany {steps : List Step} {r : NodeRef} {n : Node} {m' : Machine}
    (hpath : Path g p e m steps (some r) m') (hnode : p.resolve? r = some n)
    (hlength : steps.length = limit) :
    Ends g p limit source e m (.error (.tooManySteps p.name) m')
  | failed {steps : List Step} {r : NodeRef} {n : Node} {m₁ m' : Machine} {err : RunError}
    (hpath : Path g p e m steps (some r) m₁) (hnode : p.resolve? r = some n)
    (hlength : steps.length < limit) (hfails : n.Fails g m₁ err m') :
    Ends g p limit source e m (.error err m')

theorem lastVisited_cons (source : String) (step : Step) (steps : List Step) :
    lastVisited source (step :: steps) = lastVisited step.name steps := by
  rw [lastVisited, List.map_cons, List.getLastD_cons, lastVisited]

/-- A walk along an edge goes along the path from it: what is left of the walk starts at the other
end of the path. -/
theorem Path.walk_eq {e e' : Edge} {m m' : Machine} {steps : List Step}
    (h : Path g p e m steps e' m') (limit : Nat) (source : String) :
    (p.walk g (steps.length + limit) source e).run m =
      match (p.walk g limit (lastVisited source steps) e').run m' with
      | .ok rest m'' => .ok (steps ++ rest) m''
      | .error err m'' => .error err m'' := by
  induction h generalizing source with
  | here e m =>
    rw [List.length_nil, Nat.zero_add, lastVisited, List.map_nil, List.getLastD_nil]
    cases (p.walk g limit source e).run m <;> rfl
  | @visit r n m m₁ m' step steps next e hnode hpass hrest ih =>
    rw [List.length_cons, Nat.add_right_comm, walk_succ hnode, EStateM.run_bind,
      hpass.visit_eq]
    dsimp only
    rw [EStateM.run_bind, ih, lastVisited_cons, hpass.name_step]
    cases (p.walk g limit (lastVisited n.name steps) e).run m' <;> rfl

/-- A walk ends in the way that a path says. -/
theorem Ends.walk_eq {limit : Nat} {source : String} {e : Edge} {m : Machine}
    {result : EStateM.Result RunError Machine (List Step)} (h : Ends g p limit source e m result) :
    (p.walk g limit source e).run m = result := by
  cases h with
  | @ended steps m' hpath hlength =>
    obtain ⟨rest, rfl⟩ := Nat.exists_eq_add_of_le hlength
    rw [hpath.walk_eq, walk.eq_1]
    show EStateM.Result.ok (steps ++ []) m' = .ok steps m'
    rw [List.append_nil]
  | dangling hpath hgone hlength =>
    obtain ⟨rest, rfl⟩ := Nat.exists_eq_add_of_le hlength
    rw [hpath.walk_eq, walk_dangling hgone]
    rfl
  | tooMany hpath hnode hlength =>
    rw [← hlength, ← Nat.add_zero (List.length _), hpath.walk_eq, walk_zero hnode]
    rfl
  | failed hpath hnode hlength hfails =>
    obtain ⟨rest, rfl⟩ := Nat.exists_eq_add_of_lt hlength
    rw [Nat.add_assoc, hpath.walk_eq, walk_succ hnode, EStateM.run_bind,
      hfails.visit_eq]

/-- A node ahead of a walk that ends is one more step. -/
theorem Ends.visit {limit : Nat} {source : String} {r : NodeRef} {n : Node} {m m₁ : Machine}
    {step : Step} {next : Edge} {result : EStateM.Result RunError Machine (List Step)}
    (hnode : p.resolve? r = some n) (hpass : n.Passes g m step next m₁)
    (h : Ends g p limit n.name next m₁ result) :
    ∃ result, Ends g p (limit + 1) source (some r) m result := by
  cases h with
  | ended hpath hlength =>
    exact ⟨_, .ended (.visit hnode hpass hpath) (Nat.succ_le_succ hlength)⟩
  | dangling hpath hgone hlength =>
    exact ⟨_, .dangling (.visit hnode hpass hpath) hgone (Nat.succ_le_succ hlength)⟩
  | tooMany hpath hlast hlength =>
    exact ⟨_, .tooMany (.visit hnode hpass hpath) hlast (congrArg Nat.succ hlength)⟩
  | failed hpath hlast hlength hfails =>
    exact ⟨_, .failed (.visit hnode hpass hpath) hlast (Nat.succ_lt_succ hlength) hfails⟩

/-- Every walk ends in one of these ways. -/
theorem exists_ends (g : Program) (p : Pipeline) (limit : Nat) (source : String) (e : Edge)
    (m : Machine) : ∃ result, Ends g p limit source e m result := by
  induction limit generalizing source e m with
  | zero =>
    cases e with
    | none => exact ⟨_, .ended (.here none m) (Nat.le_refl 0)⟩
    | some r =>
      cases hr : p.resolve? r with
      | none => exact ⟨_, .dangling (.here (some r) m) hr (Nat.le_refl 0)⟩
      | some n => exact ⟨_, .tooMany (.here (some r) m) hr rfl⟩
  | succ limit ih =>
    cases e with
    | none => exact ⟨_, .ended (.here none m) (Nat.zero_le _)⟩
    | some r =>
      cases hr : p.resolve? r with
      | none => exact ⟨_, .dangling (.here (some r) m) hr (Nat.zero_le _)⟩
      | some n =>
        cases hvisit : (n.visit g).run m with
        | ok x m₁ =>
          obtain ⟨result, h⟩ := ih n.name x.2 m₁
          exact h.visit hr (Node.visit_eq_ok.mp hvisit)
        | error err m' =>
          have hfails := Node.visit_eq_error.mp hvisit
          exact ⟨_, .failed (.here (some r) m) hr (Nat.succ_pos limit) hfails⟩

/-- A walk over a bounded number of nodes ends in the way that its path says. -/
theorem walk_eq_iff {limit : Nat} {source : String} {e : Edge} {m : Machine}
    {result : EStateM.Result RunError Machine (List Step)} :
    (p.walk g limit source e).run m = result ↔ Ends g p limit source e m result := by
  refine ⟨?_, Ends.walk_eq⟩
  rintro rfl
  obtain ⟨result, h⟩ := exists_ends g p limit source e m
  rwa [h.walk_eq]

/-- The walk through a pipeline is the walk along edges from the first one, over at most 4096 nodes:
it gives the steps of the path if that ends at a null edge; it ends in a dangling edge, from the
node visited last, if the path comes to a reference to no node; it has too many steps if the path
comes to one more node after 4096 ones; and it fails as the first node on the path does at which
the packet fails.  The machine is that at the end of the path. -/
theorem run_eq_bounded_walk (g : Program) (p : Pipeline) (m : Machine) :
    (∀ steps m', (p.run g).run m = .ok steps m' ↔
      Path g p p.init m steps none m' ∧ steps.length ≤ 4096) ∧
    (∀ P source m', (p.run g).run m = .error (.danglingEdge P source) m' ↔
      P = p.name ∧ ∃ steps r, Path g p p.init m steps (some r) m' ∧ p.resolve? r = none ∧
        steps.length ≤ 4096 ∧ source = lastVisited "init_table" steps) ∧
    (∀ P m', (p.run g).run m = .error (.tooManySteps P) m' ↔
      P = p.name ∧ ∃ steps r n, Path g p p.init m steps (some r) m' ∧ p.resolve? r = some n ∧
        steps.length = 4096) ∧
    ∀ err m', (p.run g).run m = .error err m' ∧ err.Inner ↔
      ∃ steps r n m₁, Path g p p.init m steps (some r) m₁ ∧ p.resolve? r = some n ∧
        steps.length < 4096 ∧ n.Fails g m₁ err m' := by
  have hrun : ∀ result, (p.run g).run m = result ↔ Ends g p 4096 "init_table" p.init m result :=
    fun result => walk_eq_iff
  refine ⟨fun steps m' => ?_, fun P source m' => ?_, fun P m' => ?_, fun err m' => ?_⟩
  · rw [hrun]
    constructor
    · rintro ⟨hpath, hlength⟩
      exact ⟨hpath, hlength⟩
    · rintro ⟨hpath, hlength⟩
      exact .ended hpath hlength
  · rw [hrun]
    constructor
    · intro h
      cases h with
      | dangling hpath hgone hlength => exact ⟨rfl, _, _, hpath, hgone, hlength, rfl⟩
      | failed _ _ _ hfails => cases hfails.inner
    · rintro ⟨rfl, steps, r, hpath, hgone, hlength, rfl⟩
      exact .dangling hpath hgone hlength
  · rw [hrun]
    constructor
    · intro h
      cases h with
      | tooMany hpath hnode hlength => exact ⟨rfl, _, _, _, hpath, hnode, hlength⟩
      | failed _ _ _ hfails => cases hfails.inner
    · rintro ⟨rfl, steps, r, n, hpath, hnode, hlength⟩
      exact .tooMany hpath hnode hlength
  · rw [hrun]
    constructor
    · rintro ⟨h, hinner⟩
      cases h with
      | dangling | tooMany => cases hinner
      | failed hpath hnode hlength hfails => exact ⟨_, _, _, _, hpath, hnode, hlength, hfails⟩
    · rintro ⟨steps, r, n, m₁, hpath, hnode, hlength, hfails⟩
      exact ⟨.failed hpath hnode hlength hfails, hfails.inner⟩

end Pipeline

end LiveSwitch
