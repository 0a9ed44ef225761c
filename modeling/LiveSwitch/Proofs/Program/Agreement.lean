import LiveSwitch.Proofs.Program.Edits
import LiveSwitch.Proofs.Program.Walks

/-!
# Packets that never meet a node

Two pipelines that differ in one node only let a packet walk the same way as long as it does not
come to that node: it goes over the same nodes, changes the same things and ends or fails alike,
be it at a deleted node or because it took too many steps.  The same holds of programs that
differ in one such pipeline, for packets that get there without coming to the node.

## Main definitions

* `Program.SameEffects` — two programs run nodes alike.
* `Pipeline.Meets`, `Program.Reaches` — a packet comes to a node of a name.
* `Pipeline.SameOff` — two pipelines resolve their edges alike, but for those to a node of a name.

## Main results

* `Pipeline.SameOff.walk_eq` — walks that do not come to the node are equal.
* `Program.process_eq` — so is the processing of packets that do not come to the node.
-/

namespace LiveSwitch

/-! ### Nodes -/

/-- Two programs have the same actions, arrays, calculations and field widths. -/
structure Program.SameEffects (g g' : Program) : Prop where
  actions : g'.actions = g.actions
  arrays : g'.arrays = g.arrays
  calculations : g'.calculations = g.calculations
  layout : g'.layout = g.layout

/-- A node does the same in programs that differ in their pipelines and counters only. -/
theorem Program.SameEffects.visit_eq {g g' : Program} (h : g.SameEffects g') (n : Node) :
    n.visit g' = n.visit g := by
  obtain ⟨pipelines, actions, arrays, calculations, layout, _, _, _⟩ := g
  obtain ⟨pipelines', actions', arrays', calculations', layout', _, _, _⟩ := g'
  obtain ⟨hactions, harrays, hcalculations, hlayout⟩ := h
  dsimp only at hactions harrays hcalculations hlayout
  subst hactions harrays hcalculations hlayout
  cases n <;> rfl

/-! ### Walks -/

namespace Exec

variable {α β : Type}

/-- Computations that begin alike and go on alike from what they have come to. -/
theorem bind_congr {x x' : Exec α} {f f' : α → Exec β} {m : Machine} (hx : x'.run m = x.run m)
    (hf : ∀ a m', x.run m = .ok a m' → (f' a).run m' = (f a).run m') :
    (x' >>= f').run m = (x >>= f).run m := by
  show EStateM.bind x' f' m = EStateM.bind x f m
  have hx' : x' m = x m := hx
  unfold EStateM.bind
  rw [hx']
  cases hm : x m with
  | ok a m' => exact hf a m' hm
  | error e m' => rfl

end Exec

namespace Pipeline

variable {g g' : Program} {p p' : Pipeline} {name : String}

/-- A pipeline is walked alike in programs that run nodes alike. -/
theorem walk_sameEffects (h : g.SameEffects g') (p : Pipeline) (fuel : Nat) (source : String)
    (e : Edge) :
    p.walk g' fuel source e = p.walk g fuel source e := by
  induction fuel generalizing source e with
  | zero =>
    cases e with
    | none => rfl
    | some r =>
      cases hr : p.resolve? r with
      | none => rw [walk_dangling hr, walk_dangling hr]
      | some n => rw [walk_zero hr, walk_zero hr]
  | succ fuel ih =>
    cases e with
    | none => rfl
    | some r =>
      cases hr : p.resolve? r with
      | none => rw [walk_dangling hr, walk_dangling hr]
      | some n => rw [walk_succ hr, walk_succ hr, h.visit_eq, funext (ih n.name)]

/-- A packet that follows the edge at a place comes, within a number of nodes, to the node called
`name`. -/
def Meets (g : Program) (p : Pipeline) (name : String) (fuel : Nat) (place : Place) (m : Machine) :
    Prop :=
  ∃ k n m', k ≤ fuel ∧ ComesTo g p k place m n m' ∧ n.name = name

/-- Two pipelines start alike, and their edges resolve alike, but for edges to the node called
`name`. -/
structure SameOff (name : String) (p p' : Pipeline) : Prop where
  name_eq : p'.name = p.name
  init : p'.init = p.init
  resolve : ∀ place r, p.edgeAt? place = some (some r) →
    (∀ n, p.resolve? r = some n → n.name ≠ name) → p'.resolve? r = p.resolve? r

/-- A packet meets the node that the edge in front of it leads to. -/
theorem not_name_of_not_meets {fuel : Nat} {place : Place} {m : Machine} {r : NodeRef}
    (h : ¬Meets g p name fuel place m) (he : p.edgeAt? place = some (some r)) :
    ∀ n, p.resolve? r = some n → n.name ≠ name := fun n hn hname =>
  h ⟨0, n, m, Nat.zero_le fuel, ⟨place, r, .here place m, he, hn⟩, hname⟩

/-- Walks that do not come to the node called `name` are equal. -/
theorem SameOff.walk_eq (h : p.SameOff name p') (hp : p.Named) {fuel : Nat} {place : Place}
    {e : Edge} (he : p.edgeAt? place = some e) {m : Machine} (hm : ¬Meets g p name fuel place m) :
    (p'.walk g fuel place.source e).run m = (p.walk g fuel place.source e).run m := by
  -- by induction on the steps left: the packet does not meet the node from the next place either
  induction fuel generalizing place e m with
  | zero =>
    cases e with
    | none => rfl
    | some r =>
      have hresolve := h.resolve place r he (not_name_of_not_meets hm he)
      cases hr : p.resolve? r with
      | none => rw [walk_dangling hr, walk_dangling (hresolve.trans hr), h.name_eq]
      | some n => rw [walk_zero hr, walk_zero (hresolve.trans hr), h.name_eq]
  | succ fuel ih =>
    cases e with
    | none => rfl
    | some r =>
      have hresolve := h.resolve place r he (not_name_of_not_meets hm he)
      cases hr : p.resolve? r with
      | none => rw [walk_dangling hr, walk_dangling (hresolve.trans hr), h.name_eq]
      | some n =>
        rw [walk_succ hr, walk_succ (hresolve.trans hr)]
        refine Exec.bind_congr rfl ?_
        rintro ⟨step, next⟩ m₁ hvisit
        have hnext := edgeAt?_of_visit hp hr hvisit
        have hm₁ : ¬Meets g p name fuel (.port n.name (n.exit m)) m₁ := by
          rintro ⟨k, n', m', hk, hcomes, hname⟩
          have hcomes' := (comesTo_iff he hr).mpr
            (Or.inr ⟨k, step, next, m₁, rfl, hvisit, hcomes⟩)
          exact hm ⟨k + 1, n', m', Nat.succ_le_succ hk, hcomes', hname⟩
        exact Exec.bind_congr (ih hnext hm₁) fun _ _ _ => rfl

end Pipeline

/-! ### Programs -/

namespace Program

variable {g g' : Program} {pipeline name : String}

/-- A packet gets to a pipeline and comes there to the node called `name`, be it only as the node
beyond the last that it may visit. -/
def Reaches (g : Program) (m : Machine) (pipeline name : String) : Prop :=
  ∃ p m₁, g.Enters m p m₁ ∧ p.name = pipeline ∧ p.Meets g name maxSteps .start m₁

/-- Walks through lists of pipelines, when each walk that is come to is the same. -/
theorem mapM_congr {α β : Type} {f f' : α → Exec β} {h : α → α} {l : List α} {m : Machine}
    (hf : ∀ before a after bs m₁, l = before ++ a :: after → (before.mapM f).run m = .ok bs m₁ →
      (f' (h a)).run m₁ = (f a).run m₁) :
    ((l.map h).mapM f').run m = (l.mapM f).run m := by
  induction l generalizing m with
  | nil => rfl
  | cons a l ih =>
    rw [List.map_cons, List.mapM_cons, List.mapM_cons]
    have hnil : (([] : List α).mapM f).run m = .ok [] m := by
      rw [List.mapM_nil]
      rfl
    refine Exec.bind_congr (hf [] a l [] m rfl hnil) fun b m₁ hb => ?_
    refine Exec.bind_congr (ih ?_) fun _ _ _ => rfl
    intro before a' after bs m₂ hl hbs
    refine hf (a :: before) a' after (b :: bs) m₂ (by rw [hl, List.cons_append]) ?_
    rw [List.mapM_cons]
    exact Exec.bind_eq_ok.mpr ⟨b, m₁, hb, Exec.bind_eq_ok.mpr ⟨bs, m₂, hbs, rfl⟩⟩

/-- One pipeline is changed, away from the node called `name`.  Packets that do not come to that
node are processed as before. -/
theorem process_eq (hnames : g.pipelines.names.Nodup)
    (hnamed : ∀ p ∈ g.pipelines.objects, p.Named) {p p' : Pipeline}
    (hp : g.pipeline? pipeline = some p) (h : p.SameOff name p')
    (hg' : g'.pipelines = (g.setPipeline pipeline p').pipelines) (heffects : g.SameEffects g')
    {m : Machine} (hm : ¬g.Reaches m pipeline name) : g'.process.run m = g.process.run m := by
  obtain ⟨hmem, hname⟩ := ObjectMap.mem_of_get? hp
  rw [process, process, hg']
  refine Exec.bind_congr (mapM_congr ?_) fun _ _ _ => rfl
  intro before a after bs m₁ hobjects hbefore
  have hent : g.Enters m a m₁ := ⟨before, after, bs, hobjects, hbefore⟩
  have ha : a ∈ g.pipelines.objects := by
    rw [hobjects]
    exact List.mem_append_right before List.mem_cons_self
  have hstart : a.edgeAt? .start = some a.init := rfl
  -- only the walk through the pipeline that was changed may differ
  by_cases hn : nameOf a = pipeline
  · obtain rfl := ObjectMap.eq_of_name_eq hnames ha hmem (hn.trans hname.symm)
    rw [if_pos (beq_iff_eq.mpr hn)]
    have hmeets : ¬a.Meets g name maxSteps .start m₁ := fun hmeets =>
      hm ⟨a, m₁, hent, hname, hmeets⟩
    have hwalk := h.walk_eq (hnamed a ha) hstart hmeets
    rw [Pipeline.run, Pipeline.walk_sameEffects heffects, h.init]
    exact hwalk
  · rw [if_neg (by simpa using hn), Pipeline.run, Pipeline.walk_sameEffects heffects]
    rfl

end Program

end LiveSwitch
