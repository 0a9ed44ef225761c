import LiveSwitch.Proofs.Pipeline.Indexed
import LiveSwitch.Proofs.Pipeline.Ports

/-!
# Which node an edge was wired to

An edge stores a slot and a generation, and slots are used again.  What an edge *means* is the
node that it was wired to, and that can be told from the history of the pipeline alone: nodes
are numbered in the order in which they were inserted, so a number is never used again, and
each change of an edge names a node that was there at the time.  The invariant of this file
ties the slots to such a history.

## Main definitions

* `Place`, `Pipeline.edgeAt?` — where edges stand.
* `GraphEvent`, `Wiring`, `Wiring.after` — the history of a pipeline and what it says.
* `Seat` — the slot that a node was given, and how often the slot had been freed by then.
* `Pipeline.Follows` — the slots of a pipeline agree with its history.

## Main results

* `Pipeline.Follows.insert`, `wire`, `start`, `delete`, `rewrite` — every event keeps the slots
  in agreement with the history.
* `Pipeline.Follows.resolve?_live`, `resolve?_dead` — an edge to a live node resolves to that
  node, one to a deleted node to nothing, as long as no slot was freed too often.
-/

namespace LiveSwitch

/-- A place where an edge of a pipeline stands: its start, or a port of a node. -/
inductive Place where
  | start
  | port (node : String) (q : Port)
  deriving DecidableEq, Repr

/-- What a failure calls the place where an edge starts. -/
def Place.source : Place → String
  | start => "init_table"
  | port node _ => node

/-- The edge at a place. -/
def Pipeline.edgeAt? (p : Pipeline) : Place → Option Edge
  | .start => some p.init
  | .port node q => (p.node? node).bind (·.edgeAt? q)

/-- What happens to the graph of a pipeline. -/
inductive GraphEvent where
  /-- A node is inserted, its ports wired to the nodes of some names. -/
  | insert (node : String) (targets : Port → Option String)
  /-- The edge at a place is wired to the node of a name, or to none. -/
  | wire (place : Place) (target? : Option String)
  /-- A node is deleted, which frees its slot. -/
  | delete (node : String) (slot : Nat)

/-- Whether an event is a deletion. -/
def GraphEvent.isDelete : GraphEvent → Bool
  | delete .. => true
  | _ => false

/-- What the history of a pipeline says about its graph.  Nodes are numbered in the order in
which they were inserted. -/
structure Wiring where
  /-- How many nodes were inserted. -/
  born : Nat := 0
  /-- The node that has a name. -/
  live : String → Option Nat := fun _ => none
  /-- The node that the edge at a place was wired to. -/
  target : Place → Option Nat := fun _ => none
  /-- How often a slot was freed. -/
  freed : Nat → Nat := fun _ => 0

namespace Wiring

/-- What the history says after one more event. -/
def apply (w : Wiring) : GraphEvent → Wiring
  | .insert node targets =>
    { w with
      born := w.born + 1
      live := fun name => if name = node then some w.born else w.live name
      target := fun place => match place with
        | .start => w.target .start
        | .port name q =>
          if name = node then (targets q).bind w.live else w.target (.port name q) }
  | .wire place target? =>
    { w with target := fun q => if q = place then target?.bind w.live else w.target q }
  | .delete node slot =>
    { w with
      live := fun name => if name = node then none else w.live name
      freed := fun i => if i = slot then w.freed i + 1 else w.freed i }

/-- What a history says. -/
def after (w : Wiring) (events : List GraphEvent) : Wiring := events.foldl apply w

/-- A node that was not deleted. -/
def Alive (w : Wiring) (b : Nat) : Prop := ∃ name, w.live name = some b

/-- No slot was freed as often as generations can tell apart. -/
def Bounded (w : Wiring) : Prop := ∀ i, w.freed i < UInt32.size

/-- Without deletions no slot is ever freed. -/
theorem freed_after_eq {w : Wiring} {events : List GraphEvent}
    (h : ∀ e ∈ events, e.isDelete = false) : (w.after events).freed = w.freed := by
  induction events generalizing w with
  | nil => rfl
  | cons e events ih =>
    have he : (w.apply e).freed = w.freed := by
      cases e with
      | insert | wire => rfl
      | delete => cases h _ List.mem_cons_self
    have ih' := ih (w := w.apply e) fun e' h' => h e' (List.mem_cons_of_mem e h')
    exact ih'.trans he

end Wiring

/-- The slot that a node was given, and how often the slot had been freed by then. -/
structure Seat where
  slot : Nat
  turn : Nat

/-- The reference of a seat.  A generation counts the turns of its slot modulo its size. -/
def Seat.ref (s : Seat) : NodeRef := ⟨s.slot, UInt32.ofNat s.turn⟩

namespace Pipeline

variable {p p' : Pipeline} {w : Wiring} {seat : Nat → Seat}

/-- The slots of a pipeline agree with its history, when the nodes have been given seats. -/
structure Follows (p : Pipeline) (w : Wiring) (seat : Nat → Seat) : Prop where
  slots : p.FreeSlots
  generation : ∀ i, p.generationOf i = UInt32.ofNat (w.freed i)
  /-- A name leads to the seat of its node. -/
  found : ∀ name, p.find? name = (w.live name).map fun b => (seat b).ref
  /-- A live node is in its seat, whose slot was not freed since. -/
  seated : ∀ name b, w.live name = some b → b < w.born ∧
    (seat b).turn = w.freed (seat b).slot ∧
    ∃ n, p.nodeIn? (seat b).slot = some n ∧ n.name = name
  /-- What is in a slot is a live node in its seat. -/
  occupied : ∀ i n, p.nodeIn? i = some n → ∃ b, w.live n.name = some b ∧ (seat b).slot = i
  /-- The slot of a deleted node was freed since. -/
  left : ∀ b, b < w.born → ¬w.Alive b → (seat b).turn < w.freed (seat b).slot
  /-- Edges lead only to nodes that were inserted. -/
  born : ∀ place b, w.target place = some b → b < w.born
  init : p.init = (w.target .start).map fun b => (seat b).ref
  edges : ∀ i n q e, p.nodeIn? i = some n → n.edgeAt? q = some e →
    e = (w.target (.port n.name q)).map fun b => (seat b).ref

namespace Follows

/-! ### What the invariant says about edges -/

/-- The node called `name` is the one in the seat of the live node of that name. -/
theorem node?_of_live (h : p.Follows w seat) {name : String} {b : Nat}
    (hb : w.live name = some b) :
    ∃ n, p.node? name = some n ∧ p.resolve? (seat b).ref = some n ∧ n.name = name := by
  obtain ⟨-, hturn, n, hn, hname⟩ := h.seated name b hb
  have hresolve : p.resolve? (seat b).ref = some n := by
    have hgen : p.generationOf (seat b).ref.slot = (seat b).ref.generation := by
      rw [h.generation, Seat.ref, hturn]
    rw [resolve?_eq, if_pos hgen]
    exact hn
  refine ⟨n, ?_, hresolve, hname⟩
  rw [node?, h.found, hb]
  exact hresolve

/-- Names lead to nodes, whatever the edges are. -/
theorem indexed (h : p.Follows w seat) : p.Indexed where
  slots := h.slots
  found name r := by
    constructor
    · intro hr
      obtain ⟨b, hb, rfl⟩ := Option.map_eq_some_iff.mp ((h.found name).symm.trans hr)
      obtain ⟨n, -, hresolve, hname⟩ := h.node?_of_live hb
      exact ⟨n, hresolve, hname⟩
    · rintro ⟨n, hn, rfl⟩
      -- the slot of the reference is the seat of the node in it, in the turn that it is in
      have hin := nodeIn?_of_resolve? hn
      obtain ⟨b, hb, hslot⟩ := h.occupied r.slot n hin
      obtain ⟨m, -, hresolve, -⟩ := h.node?_of_live hb
      have hgen : p.generationOf (seat b).slot = (seat b).ref.generation :=
        generationOf_of_resolve? hresolve
      rw [hslot, generationOf_of_resolve? hn] at hgen
      have href : (seat b).ref = r := by
        rw [Seat.ref, hslot]
        exact congrArg (NodeRef.mk r.slot) hgen.symm
      rw [h.found, hb, Option.map_some, href]

/-- The edge at a place is the reference of the node that it was wired to. -/
theorem edgeAt?_eq (h : p.Follows w seat) {place : Place} {e : Edge}
    (he : p.edgeAt? place = some e) : e = (w.target place).map fun b => (seat b).ref := by
  cases place with
  | start =>
    rw [← Option.some.inj he]
    exact h.init
  | port node q =>
    obtain ⟨n, hn, hq⟩ := Option.bind_eq_some_iff.mp he
    obtain ⟨hmem, rfl⟩ := h.indexed.node?_eq_some_iff.mp hn
    obtain ⟨i, hi⟩ := mem_nodes_iff.mp hmem
    exact h.edges i n q e hi hq

/-- The slot of a deleted node has moved on, and within the bound the generations tell the turns
of a slot apart. -/
theorem generationOf_ne (h : p.Follows w seat) (hbound : w.Bounded) {b : Nat} (hb : b < w.born)
    (hdead : ¬w.Alive b) : p.generationOf (seat b).slot ≠ (seat b).ref.generation := by
  have hlt := h.left b hb hdead
  have hfreed := hbound (seat b).slot
  intro heq
  rw [h.generation] at heq
  have heq' : w.freed (seat b).slot % UInt32.size = (seat b).turn % UInt32.size :=
    congrArg UInt32.toNat heq
  rw [Nat.mod_eq_of_lt hfreed, Nat.mod_eq_of_lt (by omega)] at heq'
  omega

/-- A reference to a deleted node resolves to nothing. -/
theorem resolve?_dead (h : p.Follows w seat) (hbound : w.Bounded) {b : Nat} (hb : b < w.born)
    (hdead : ¬w.Alive b) : p.resolve? (seat b).ref = none := by
  rw [resolve?_eq]
  exact if_neg (h.generationOf_ne hbound hb hdead)

/-! ### Events -/

/-- A pipeline without nodes has no history. -/
theorem empty (identity : Identity) (extra : Json.Object) (seat : Nat → Seat) :
    ({ identity, extra } : Pipeline).Follows {} seat where
  slots := ⟨List.nodup_nil, by simp, by simp⟩
  generation i := rfl
  found name := rfl
  seated name b h := by cases h
  occupied i n h := by cases h
  left b h := by cases h
  born place b h := by cases h
  init := rfl
  edges i n q e h := by cases h

/-- A node that is inserted, its edges leading to nodes by their names. -/
theorem insert (h : p.Follows w seat) {n : Node} {r : NodeRef} (targets : Port → Option String)
    (he : ∀ q e, n.edgeAt? q = some e → e = (targets q).bind p.find?)
    (hins : p.insertNode n = .ok (r, p')) :
    ∃ seat', p'.Follows (w.apply (.insert n.name targets)) seat' := by
  obtain ⟨hname, hempty, hgen, hnode, hgens, hfind, hslots, hinit⟩ :=
    insertNode_ok h.slots hins
  have hlive : w.live n.name = none := by
    have hmap := h.found n.name
    rw [hname] at hmap
    exact Option.map_eq_none_iff.mp hmap.symm
  have hne : ∀ name b, w.live name = some b → name ≠ n.name := by
    rintro name b hb rfl
    rw [hlive] at hb
    cases hb
  -- the new node takes the seat that its slot offers at this turn
  let seat' : Nat → Seat := fun b => if b = w.born then ⟨r.slot, w.freed r.slot⟩ else seat b
  have hseat : ∀ b, b < w.born → seat' b = seat b := fun b hb => if_neg (by omega)
  have hnew : seat' w.born = ⟨r.slot, w.freed r.slot⟩ := if_pos rfl
  have href : (seat' w.born).ref = r := by
    rw [hnew, Seat.ref, ← h.generation, ← hgen]
  have hold : ∀ o : Option Nat, (∀ b, o = some b → b < w.born) →
      (o.map fun b => (seat b).ref) = o.map fun b => (seat' b).ref := by
    intro o ho
    cases o with
    | none => rfl
    | some b => rw [Option.map_some, Option.map_some, hseat b (ho b rfl)]
  have hborn : ∀ name b, w.live name = some b → b < w.born :=
    fun name b hb => (h.seated name b hb).1
  refine ⟨seat', ?_⟩
  constructor
  case slots => exact hslots
  case generation =>
    intro i
    rw [hgens]
    exact h.generation i
  case found =>
    intro name
    rw [hfind]
    show _ = (if name = n.name then some w.born else w.live name).map _
    split
    · rw [Option.map_some, href]
    · rw [h.found, hold _ (hborn name)]
  case seated =>
    intro name b hb
    replace hb : (if name = n.name then some w.born else w.live name) = some b := hb
    show b < w.born + 1 ∧ _
    split at hb
    case isTrue heq =>
      cases hb
      rw [hnew]
      refine ⟨by omega, rfl, n, ?_, heq.symm⟩
      rw [hnode, if_pos rfl]
    case isFalse =>
      obtain ⟨hlt, hturn, m, hm, hmname⟩ := h.seated name b hb
      rw [hseat b hlt]
      refine ⟨by omega, hturn, m, ?_, hmname⟩
      rw [hnode, if_neg]
      · exact hm
      · intro heq
        rw [heq, hempty] at hm
        cases hm
  case occupied =>
    intro i m hm
    rw [hnode] at hm
    show ∃ b, (if m.name = n.name then some w.born else w.live m.name) = some b ∧ _
    split at hm
    case isTrue hi =>
      cases hm
      exact ⟨w.born, if_pos rfl, by rw [hnew, hi]⟩
    case isFalse =>
      obtain ⟨b, hb, hslot⟩ := h.occupied i m hm
      exact ⟨b, by rw [if_neg (hne _ b hb), hb], by rw [hseat b (hborn _ b hb), hslot]⟩
  case left =>
    intro b hb hdead
    have hb' : b ≠ w.born := by
      rintro rfl
      exact hdead ⟨n.name, if_pos rfl⟩
    have hlt : b < w.born := by
      have : b < w.born + 1 := hb
      omega
    rw [hseat b hlt]
    refine h.left b hlt ?_
    rintro ⟨name, halive⟩
    exact hdead ⟨name, (if_neg (hne name b halive)).trans halive⟩
  case born =>
    intro place b hb
    show b < w.born + 1
    cases place with
    | start => exact Nat.lt_succ_of_lt (h.born _ b hb)
    | port name q =>
      replace hb : (if name = n.name then (targets q).bind w.live
        else w.target (.port name q)) = some b := hb
      split at hb
      · obtain ⟨t, -, ht⟩ := Option.bind_eq_some_iff.mp hb
        exact Nat.lt_succ_of_lt (hborn t b ht)
      · exact Nat.lt_succ_of_lt (h.born _ b hb)
  case init =>
    rw [hinit, h.init]
    exact hold _ (h.born .start)
  case edges =>
    intro i m q e hm hq
    rw [hnode] at hm
    show e = (if m.name = n.name then (targets q).bind w.live
      else w.target (.port m.name q)).map _
    split at hm
    case isTrue =>
      cases hm
      rw [if_pos rfl, he q e hq]
      cases targets q with
      | none => rfl
      | some t =>
        rw [Option.bind_some, Option.bind_some, h.found, hold _ (hborn t)]
    case isFalse =>
      obtain ⟨b, hb, -⟩ := h.occupied i m hm
      rw [if_neg (hne _ b hb), h.edges i m q e hm hq, hold _ (h.born _)]

/-- A node that is deleted. -/
theorem delete (h : p.Follows w seat) {name : String} {r : NodeRef}
    (hr : p.find? name = some r) :
    (p.removeNode name).Follows (w.apply (.delete name r.slot)) seat := by
  rw [h.found] at hr
  obtain ⟨b, hb, rfl⟩ := Option.map_eq_some_iff.mp hr
  obtain ⟨hlt, hturn, n, hn, hname⟩ := h.seated name b hb
  obtain ⟨hnode, hgen, hfind, hslots, hinit⟩ :=
    removeNode_ok h.slots (by rw [h.found, hb, Option.map_some]) hn
  have hslot : (seat b).ref.slot = (seat b).slot := rfl
  rw [hslot] at hnode hgen ⊢
  have hle : ∀ i, w.freed i ≤ (w.apply (.delete name (seat b).slot)).freed i := by
    intro i
    show w.freed i ≤ if i = (seat b).slot then w.freed i + 1 else w.freed i
    split <;> omega
  constructor
  case slots => exact hslots
  case generation =>
    intro i
    rw [hgen]
    show _ = UInt32.ofNat (if i = (seat b).slot then w.freed i + 1 else w.freed i)
    split
    · rw [h.generation, UInt32.ofNat_add]
      rfl
    · exact h.generation i
  case found =>
    intro key
    rw [hfind]
    show _ = (if key = name then none else w.live key).map _
    split
    · rfl
    · exact h.found key
  case seated =>
    intro key c hc
    replace hc : (if key = name then none else w.live key) = some c := hc
    split at hc
    case isTrue => cases hc
    case isFalse hkey =>
      obtain ⟨hclt, hcturn, m, hm, hmname⟩ := h.seated key c hc
      -- two live nodes of different names do not share a slot
      have hne : (seat c).slot ≠ (seat b).slot := by
        intro heq
        rw [heq, hn] at hm
        cases hm
        exact hkey (hmname.symm.trans hname)
      refine ⟨hclt, ?_, m, ?_, hmname⟩
      · show _ = if (seat c).slot = (seat b).slot then _ else _
        rw [if_neg hne, hcturn]
      · rw [hnode, if_neg hne, hm]
  case occupied =>
    intro i m hm
    rw [hnode] at hm
    split at hm
    case isTrue => cases hm
    case isFalse hi =>
      obtain ⟨c, hc, hcslot⟩ := h.occupied i m hm
      refine ⟨c, ?_, hcslot⟩
      show (if m.name = name then none else w.live m.name) = some c
      rw [if_neg]
      · exact hc
      · intro heq
        rw [heq, hb] at hc
        cases hc
        exact hi hcslot.symm
  case left =>
    intro c hclt hdead
    by_cases hc : w.Alive c
    · -- the node that is dead now and was not before is the deleted one
      have hcb : c = b := by
        obtain ⟨key, hkey⟩ := hc
        by_cases hk : key = name
        · rw [hk, hb] at hkey
          exact (Option.some.inj hkey).symm
        · exact absurd ⟨key, (if_neg hk).trans hkey⟩ hdead
      subst hcb
      show _ < if (seat c).slot = (seat c).slot then _ else _
      rw [if_pos rfl]
      omega
    · exact Nat.lt_of_lt_of_le (h.left c hclt hc) (hle _)
  case born => exact h.born
  case init => exact hinit.trans h.init
  case edges =>
    intro i m q e hm hq
    rw [hnode] at hm
    split at hm
    · cases hm
    · exact h.edges i m q e hm hq

/-- The nodes stay where they are, and some edges change. -/
theorem retarget (h : p.Follows w seat) {target : Place → Option Nat} {f : Node → Node}
    (hslots : p'.FreeSlots) (hgen : ∀ i, p'.generationOf i = p.generationOf i)
    (hfind : ∀ name, p'.find? name = p.find? name)
    (hnode : ∀ i, p'.nodeIn? i = (p.nodeIn? i).map f)
    (hf : ∀ i n, p.nodeIn? i = some n → (f n).name = n.name)
    (hborn : ∀ place b, target place = some b → b < w.born)
    (hinit : p'.init = (target .start).map fun b => (seat b).ref)
    (hedges : ∀ i n q e, p.nodeIn? i = some n → (f n).edgeAt? q = some e →
      e = (target (.port n.name q)).map fun b => (seat b).ref) :
    p'.Follows { w with target } seat where
  slots := hslots
  generation i := by rw [hgen, h.generation]
  found name := by rw [hfind, h.found]
  seated name b hb := by
    obtain ⟨hlt, hturn, n, hn, hname⟩ := h.seated name b hb
    refine ⟨hlt, hturn, f n, ?_, (hf _ n hn).trans hname⟩
    rw [hnode, hn, Option.map_some]
  occupied i m hm := by
    rw [hnode] at hm
    obtain ⟨n, hn, rfl⟩ := Option.map_eq_some_iff.mp hm
    rw [hf i n hn]
    exact h.occupied i n hn
  left := h.left
  born := hborn
  init := hinit
  edges i m q e hm hq := by
    rw [hnode] at hm
    obtain ⟨n, hn, rfl⟩ := Option.map_eq_some_iff.mp hm
    rw [hf i n hn]
    exact hedges i n q e hn hq

/-- A node is changed in something other than its name and its edges. -/
theorem rewrite (h : p.Follows w seat) {name : String} {f : Node → Node}
    (hf : ∀ n, p.node? name = some n →
      (f n).name = n.name ∧ ∀ q, (f n).edgeAt? q = n.edgeAt? q) :
    (p.modifyNode name f).Follows w seat := by
  have hf' : ∀ i n, p.nodeIn? i = some n → n.name = name →
      (f n).name = n.name ∧ ∀ q, (f n).edgeAt? q = n.edgeAt? q := by
    rintro i n hn rfl
    exact hf n (h.indexed.node?_of_mem (mem_nodes_iff.mpr ⟨i, hn⟩))
  refine h.retarget (h.indexed.freeSlots_modifyNode name f) (generationOf_modifyNode name f)
    (find?_modifyNode name f) (h.indexed.nodeIn?_modifyNode name f) ?_ h.born ?_ ?_
  · intro i n hn
    split
    case isTrue hname => exact (hf' i n hn hname).1
    case isFalse => rfl
  · rw [init_modifyNode, h.init]
  · intro i n q e hn hq
    split at hq
    case isTrue hname =>
      rw [(hf' i n hn hname).2] at hq
      exact h.edges i n q e hn hq
    case isFalse => exact h.edges i n q e hn hq

theorem lt_of_bind_live (h : p.Follows w seat) {target? : Option String} {b : Nat}
    (hb : target?.bind w.live = some b) : b < w.born := by
  obtain ⟨t, -, ht⟩ := Option.bind_eq_some_iff.mp hb
  exact (h.seated t b ht).1

/-- The reference of a name is the one of its live node. -/
theorem bind_find? (h : p.Follows w seat) (target? : Option String) :
    target?.bind p.find? = (target?.bind w.live).map fun b => (seat b).ref := by
  cases target? with
  | none => rfl
  | some t => exact h.found t

theorem lt_of_wire (h : p.Follows w seat) {place : Place} {target? : Option String} :
    ∀ q b, (w.apply (.wire place target?)).target q = some b → b < w.born := by
  intro q b hb
  replace hb : (if q = place then target?.bind w.live else w.target q) = some b := hb
  split at hb
  · exact h.lt_of_bind_live hb
  · exact h.born q b hb

/-- An edge of a node is wired. -/
theorem wire (h : p.Follows w seat) (name : String) (q : Port) (target? : Option String) :
    (p.modifyNode name (Node.setEdge q (target?.bind p.find?))).Follows
      (w.apply (.wire (.port name q) target?)) seat := by
  refine h.retarget (h.indexed.freeSlots_modifyNode name _) (generationOf_modifyNode name _)
    (find?_modifyNode name _) (h.indexed.nodeIn?_modifyNode name _) ?_ h.lt_of_wire ?_ ?_
  · intro i n hn
    split
    · exact Node.name_setEdge q _ n
    · rfl
  · rw [init_modifyNode, h.init]
    rfl
  · intro i n q' e hn hq'
    show e = (if Place.port n.name q' = Place.port name q then target?.bind w.live
      else w.target (.port n.name q')).map _
    by_cases hname : n.name = name
    · rw [if_pos hname] at hq'
      cases htakes : n.takes q with
      | true =>
        rw [Node.edgeAt?_setEdge htakes] at hq'
        by_cases hq : q' = q
        · rw [if_pos hq] at hq'
          rw [hq, hname, if_pos rfl, ← h.bind_find?]
          exact (Option.some.inj hq').symm
        · rw [if_neg hq] at hq'
          rw [if_neg (by simp [hq])]
          exact h.edges i n q' e hn hq'
      | false =>
        -- a node without the port is not changed
        have hsame : n.setEdge q (target?.bind p.find?) = n := Node.setEdge_of_not_takes htakes _
        rw [hsame] at hq'
        have hq : q' ≠ q := by
          rintro rfl
          rw [Node.takes_of_edgeAt? hq'] at htakes
          cases htakes
        rw [if_neg (by simp [hq])]
        exact h.edges i n q' e hn hq'
    · rw [if_neg hname] at hq'
      rw [if_neg (by simp [hname])]
      exact h.edges i n q' e hn hq'

/-- The edge to the first node is wired. -/
theorem start (h : p.Follows w seat) (target? : Option String) :
    ({ p with init := target?.bind p.find? } : Pipeline).Follows
      (w.apply (.wire .start target?)) seat := by
  have hself : ∀ i, p.nodeIn? i = (p.nodeIn? i).map id := fun i => by rw [Option.map_id, id]
  refine h.retarget ⟨h.slots.nodup, h.slots.lt, h.slots.empty⟩ (fun _ => rfl) (fun _ => rfl)
    hself (fun _ _ _ => rfl) h.lt_of_wire ?_ ?_
  · show _ = (if Place.start = Place.start then target?.bind w.live else _).map _
    rw [if_pos rfl]
    exact h.bind_find? target?
  · intro i n q e hn hq
    exact h.edges i n q e hn hq

end Follows

end Pipeline

end LiveSwitch
