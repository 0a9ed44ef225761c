import LiveSwitch.Proofs.Program.Walks
import LiveSwitch.Proofs.Switch.Generations

/-!
# Edges keep their identity

An edge of a program that was loaded and edited leads to the node that it was wired to.  When
that node is deleted, the edge leads nowhere, even when its slot is given to another node or
a node of the same name is inserted again.  The generations of a slot tell its turns apart as
long as it is not freed as often as they can count.

## Main definitions

* `Pipeline.LeadsTo` — what has become of an edge that was wired to a node.

## Main results

* `Program.edges_keep_identity` — every edge leads to the node that it was wired to, or to
  nothing once that node was deleted; packets end in a dangling edge in the latter case only.
-/

namespace LiveSwitch

/-- An edge that was wired to a node resolves to that node, which its name still finds, or, once
the node was deleted, to nothing. -/
def Pipeline.LeadsTo (p : Pipeline) (w : Wiring) (e : Edge) (b : Nat) : Prop :=
  ∃ r, e = some r ∧
    ((∃ n, w.live n.name = some b ∧ p.node? n.name = some n ∧ p.resolve? r = some n) ∨
      ¬w.Alive b ∧ p.resolve? r = none)

namespace Pipeline

variable {p : Pipeline} {w : Wiring} {seat : Nat → Seat}

theorem Follows.named (h : p.Follows w seat) : p.Named := fun _ hn => h.indexed.node?_of_mem hn

theorem Follows.leadsTo (h : p.Follows w seat) (hbound : w.Bounded) {place : Place} {e : Edge}
    {b : Nat} (he : p.edgeAt? place = some e) (hb : w.target place = some b) :
    p.LeadsTo w e b := by
  have heq := h.edgeAt?_eq he
  rw [hb, Option.map_some] at heq
  refine ⟨_, heq, ?_⟩
  by_cases halive : w.Alive b
  · obtain ⟨name, hlive⟩ := halive
    obtain ⟨n, hn, hresolve, rfl⟩ := h.node?_of_live hlive
    exact Or.inl ⟨n, hlive, hn, hresolve⟩
  · exact Or.inr ⟨halive, h.resolve?_dead hbound (h.born place b hb) halive⟩

/-- The edge at a place dangles exactly when the node that it was wired to was deleted. -/
theorem Follows.dangles_iff (h : p.Follows w seat) (hbound : w.Bounded) {place : Place} {e : Edge}
    (he : p.edgeAt? place = some e) :
    p.Dangles place ↔ ∃ b, w.target place = some b ∧ ¬w.Alive b := by
  constructor
  · rintro ⟨r, hr, hnone⟩
    have heq := h.edgeAt?_eq hr
    obtain ⟨b, hb, href⟩ := Option.map_eq_some_iff.mp heq.symm
    refine ⟨b, hb, ?_⟩
    rintro ⟨name, hlive⟩
    obtain ⟨n, -, hresolve, -⟩ := h.node?_of_live hlive
    rw [href, hnone] at hresolve
    cases hresolve
  · rintro ⟨b, hb, hdead⟩
    obtain ⟨r, rfl, ⟨n, hlive, -⟩ | ⟨-, hnone⟩⟩ := h.leadsTo hbound he hb
    · exact absurd ⟨n.name, hlive⟩ hdead
    · exact ⟨r, he, hnone⟩

/-- Where a packet comes, there is an edge. -/
theorem Comes.edgeAt? {g : Program} {k : Nat} {place place' : Place} {m m' : Machine}
    (h : Comes g p k place m place' m') (hp : p.Named)
    (hplace : ∃ e, p.edgeAt? place = some e) : ∃ e, p.edgeAt? place' = some e := by
  induction h with
  | here => exact hplace
  | visit _ hnode hvisit _ ih => exact ih ⟨_, edgeAt?_of_visit hp hnode hvisit⟩

end Pipeline

namespace Program

variable {g : Program} {log : Log}

/-- No slot of a pipeline was freed as often as generations can tell apart. -/
def Bounded (g : Program) (log : Log) : Prop :=
  ∀ p ∈ g.pipelines.objects, (log.wiring p.name).Bounded

/-- A packet ends in a dangling edge exactly when it comes to an edge whose node was deleted. -/
theorem Follows.process_dangling_iff (h : g.Follows log) (hbound : g.Bounded log)
    {m m' : Machine} {P source : String} :
    g.process.run m = .error (.danglingEdge P source) m' ↔
      ∃ p m₁ k place b, g.Enters m p m₁ ∧ P = p.name ∧ k ≤ maxSteps ∧ source = place.source ∧
        Pipeline.Comes g p k .start m₁ place m' ∧
        (log.wiring p.name).target place = some b ∧ ¬(log.wiring p.name).Alive b := by
  have hnamed : ∀ p ∈ g.pipelines.objects, p.Named := by
    intro p hp
    obtain ⟨seat, hseat⟩ := h p hp
    exact hseat.named
  have hdangles : ∀ p ∈ g.pipelines.objects, ∀ m₁ k place,
      Pipeline.Comes g p k .start m₁ place m' → (p.Dangles place ↔
        ∃ b, (log.wiring p.name).target place = some b ∧ ¬(log.wiring p.name).Alive b) := by
    intro p hp m₁ k place hcomes
    obtain ⟨seat, hseat⟩ := h p hp
    obtain ⟨e, he⟩ := hcomes.edgeAt? hseat.named ⟨_, rfl⟩
    exact hseat.dangles_iff (hbound p hp) he
  rw [Program.process_dangling_iff hnamed]
  constructor
  · rintro ⟨p, m₁, k, place, henters, hP, hk, hsource, hcomes, hd⟩
    obtain ⟨b, hb, hdead⟩ := (hdangles p (mem_of_enters henters) m₁ k place hcomes).mp hd
    exact ⟨p, m₁, k, place, b, henters, hP, hk, hsource, hcomes, hb, hdead⟩
  · rintro ⟨p, m₁, k, place, b, henters, hP, hk, hsource, hcomes, hb, hdead⟩
    have hd := (hdangles p (mem_of_enters henters) m₁ k place hcomes).mpr ⟨b, hb, hdead⟩
    exact ⟨p, m₁, k, place, henters, hP, hk, hsource, hcomes, hd⟩

/-- Every edge of a traced program is null, or resolves to the very node that it was wired to,
or, once that node was deleted, to nothing.  A packet ends in a dangling edge exactly when it
comes to an edge whose node was deleted, and without deletions it never does. -/
theorem edges_keep_identity (h : g.Traced log) :
    (g.Bounded log →
      (∀ p ∈ g.pipelines.objects, (∀ n ∈ p.nodes, p.node? n.name = some n) ∧
        ∀ place e, p.edgeAt? place = some e →
          match (log.wiring p.name).target place with
          | none => e = none
          | some b => p.LeadsTo (log.wiring p.name) e b) ∧
      ∀ m m' P source, g.process.run m = .error (.danglingEdge P source) m' ↔
        ∃ p m₁ k place b, g.Enters m p m₁ ∧ P = p.name ∧ k ≤ maxSteps ∧ source = place.source ∧
          Pipeline.Comes g p k .start m₁ place m' ∧
          (log.wiring p.name).target place = some b ∧ ¬(log.wiring p.name).Alive b) ∧
    ((∀ x ∈ log, x.2.isDelete = false) →
      ∀ m m' P source, g.process.run m ≠ .error (.danglingEdge P source) m') := by
  have hfollows := h.follows
  refine ⟨fun hbound => ⟨?_, fun m m' P source => hfollows.process_dangling_iff hbound⟩, ?_⟩
  · intro p hp
    obtain ⟨seat, hseat⟩ := hfollows p hp
    refine ⟨hseat.named, fun place e he => ?_⟩
    split
    case h_1 hb =>
      have heq := hseat.edgeAt?_eq he
      rw [hb] at heq
      exact heq
    case h_2 b hb => exact hseat.leadsTo (hbound p hp) he hb
  · intro hlog m m' P source herror
    have hbound : g.Bounded log := by
      intro p _ i
      rw [Log.freed_eq_zero hlog]
      decide
    obtain ⟨p, m₁, k, place, b, henters, -, -, -, -, hb, hdead⟩ :=
      (hfollows.process_dangling_iff hbound).mp herror
    -- the slot of a deleted node was freed, and no slot ever was
    obtain ⟨seat, hseat⟩ := hfollows p (mem_of_enters henters)
    have hleft := hseat.left b (hseat.born place b hb) hdead
    rw [Log.freed_eq_zero hlog] at hleft
    exact Nat.not_lt_zero _ hleft

/-! ### A slot that is used again -/

/-- A document of one flex node. -/
def flexDocument : Json.Value :=
  .object [("pipelines", .array [.object
    [("conditionals", .array [.object
        [("flex", .bool true), ("id", .ofNat 0), ("name", .string "a")]]),
      ("id", .ofNat 0), ("init_table", .string "a"), ("name", .string "p")]])]

/-- Its pipeline, with the node in a generation of its slot and under an id. -/
def flexPipeline (generation : UInt32) (id : Int) : Pipeline :=
  { identity := ⟨"p", 0, none⟩
    init := some ⟨0, 0⟩
    slots := [⟨generation, some (.conditional
      { identity := ⟨"a", id, none⟩, condition? := none, flex := true })⟩]
    byName := [("a", ⟨0, generation⟩)] }

/-- Its program, in the same way. -/
def flexProgram (generation : UInt32) (id : Int) : Program :=
  { pipelines := { objects := [flexPipeline generation id], ids := ⟨1⟩ }
    conditionalIds := ⟨id + 1⟩ }

/-- The program once the node was deleted. -/
def flexDeleted : Program :=
  { pipelines :=
      { objects := [{ flexPipeline 0 0 with slots := [⟨1, none⟩], free := [0], byName := [] }]
        ids := ⟨1⟩ }
    conditionalIds := ⟨1⟩ }

/-- The node is deleted, and another one of the same name gets its slot. -/
def flexLog : Log :=
  [("p", .bare ⟨"a", 0, none⟩), ("p", .wire (.port "a" (.branch .onTrue)) none),
    ("p", .wire (.port "a" (.branch .onFalse)) none), ("p", .wire .start (some "a")),
    ("p", .delete "a" 0), ("p", .insert "a" (flexTargets none none))]

/-- The edge to the deleted node resolves to nothing, although its slot holds a node of the same
name again. -/
theorem edge_to_reused_slot :
    (flexProgram 1 1).Traced flexLog ∧ (flexProgram 1 1).Bounded flexLog ∧
      (flexPipeline 1 1).find? "a" = some ⟨0, 1⟩ ∧
      (flexPipeline 1 1).LeadsTo (flexLog.wiring "p") (some ⟨0, 0⟩) 0 := by
  have hload : ofDocument {} flexDocument = .ok (flexProgram 0 0, {}) := rfl
  have hdelete : Edit.run {} (flexProgram 0 0, {}) (.deleteConditional "p" "a") =
      .ok (flexDeleted, {}) := rfl
  have hinsert : Edit.run {} (flexDeleted, {}) (.insertFlex "p" "a" none none) =
      .ok (flexProgram 1 1, {}) := rfl
  have htraced : (flexProgram 1 1).Traced flexLog := ((Traced.load hload).edit hdelete).edit hinsert
  have hbound : (flexProgram 1 1).Bounded flexLog := by
    intro p hp i
    rw [List.mem_singleton.mp hp]
    show (if i = 0 then 0 + 1 else 0) < UInt32.size
    split <;> decide
  have hedges := ((edges_keep_identity htraced).1 hbound).1 _ List.mem_cons_self
  exact ⟨htraced, hbound, rfl, hedges.2 .start _ rfl⟩

end Program

end LiveSwitch
